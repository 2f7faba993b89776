import Synapse.Network.Session

namespace Synapse.Sample

/-- A multiple of one eighth from -1 to 1, in eighths. -/
def eighths (layer sink src : Nat) : Int :=
  ((layer * 31 + sink * 7 + src * 3) % 17 : Nat) - 8

/-- The weight of the edge from `src` to `sink`. -/
def weight (layer sink src : Nat) : Binary64 := .ofDyadic (eighths layer sink src) 3

/-- Half of what the weight of one more edge would be. -/
def bias (layer sink width : Nat) : Binary64 := .ofDyadic (eighths layer sink width) 4

/-- The sigmoid of the weighted sum of a neuron's inputs. -/
def weightedSum (n : NeuronId) (weights : List Binary64) (bias : Binary64) : Sketch where
  above :=
    [.literal (.vec weights), .input n, .binary .mul 0 1, .reduce .sum 2, .literal (.real bias),
      .binary .add 3 4]
  last := .activate "sigmoid" 5

/-- Every neuron is fed by all of the layer before. -/
def dense (width : Nat) : Network.Connections := fun position =>
  if position < width then some (List.range width) else none

def fillNeuron (l : LayerId) (width position : Nat) (n : NeuronId) : Pass Unit := do
  let weights := (List.range width).map (weight l position)
  let bias := bias l position width
  let _ ← Pass.addProperty n "weights" (.vector weights)
  let _ ← Pass.addProperty n "bias" (.scalar bias)
  let _ ← Pass.setForward n (weightedSum n weights bias)

/-- Adds a layer of sigmoid neurons that reads all of the layer before. -/
def addDense (kind : NeuronKind) (width : Nat) (previous : LayerId) : Pass LayerId := do
  let l ← Pass.addLayer
  let neurons ← (List.range width).mapM fun _ => Pass.addNeuron l kind
  Pass.connectLayers previous l (dense width)
  neurons.zipIdx.forM fun (n, position) => fillNeuron l width position n
  return l

/-- Adds a layer of neurons that pass the network's input on. -/
def addInputs (width : Nat) : Pass LayerId := do
  let l ← Pass.addLayer
  (List.range width).forM fun _ => do
    let n ← Pass.addNeuron l .input
    let _ ← Pass.setForward n { above := [], last := .input n }
  return l

/-- A perceptron of sigmoid neurons with the given number of hidden layers, all layers of one width
and each connected to the next in full. -/
def perceptron (width hidden : Nat) : Pass Unit := do
  let inputs ← addInputs width
  let last ← (List.range hidden).foldlM (fun l _ => addDense .hidden width l) inputs
  let _ ← addDense .output width last

end Synapse.Sample
