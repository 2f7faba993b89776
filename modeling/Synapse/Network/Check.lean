import Synapse.Network.Session

namespace Synapse.Pass

/-- A forward expression must be well typed and scalar, and must read the inputs of its own neuron
only. -/
def checkNeuron (l : LayerId) (position : Nat) (n : NeuronId) : Pass Unit := do
  match (← neuron n).forward with
  | none => pure ()
  | some root =>
    let net ← network
    if (Arena.inputNeurons net.arena.nodes root).any (· != n) then
      throw (.error (.type (.foreignInput l position)))
    else
      let t ← infer root
      report (.typed l position t)
      if t.isVector then throw (.error (.type (.outputNotScalar l position t)))
      else pure ()

def checkLayer (l : LayerId) (layer : Layer) : Pass Unit :=
  layer.neurons.zipIdx.forM fun (n, position) => checkNeuron l position n

/-- Checks the neurons layer by layer and stops at the first that is wrong. -/
def check : Pass Unit := do
  let net ← network
  net.layers.toList.zipIdx.forM fun (layer, l) => checkLayer l layer

end Synapse.Pass
