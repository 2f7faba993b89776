import Synapse.Lowering.Ensemble
import Synapse.Network.Check

namespace Synapse

/-- Whether a neuron hands the network's input on as it is. -/
def Network.passesInput (net : Network) (n : NeuronId) : Bool :=
  match net.neurons[n]? with
  | none => false
  | some x =>
    x.isInput && match x.forward with
      | none => true
      | some root => net.arena.nodes[root]? == some (.input n)

def Network.passThrough (net : Network) (l : Layer) : Bool := l.neurons.all net.passesInput

/-- The layers that become code, with their numbers. A first layer that only passes the network's
input on is left out, and the layer after it reads the input itself. -/
def Network.loweredLayers (net : Network) : List (Layer × LayerId) :=
  match net.layers.toList.zipIdx with
  | first :: second :: rest =>
    if net.passThrough first.1 then second :: rest else first :: second :: rest
  | layers => layers

def Layer.vectorTy (l : Layer) : Ty := .vectorOf .real l.neurons.length

namespace Pass

/-- Lowers ensembles one after the other. -/
def lowerEnsembles (input output : VarId) : List Ensemble → Build → Pass (Build × List Stmt)
  | [], b => return (b, [])
  | e :: rest, b => do
    let (b, s) ← lowerEnsemble e input output b
    let (b, below) ← lowerEnsembles input output rest b
    return (b, s :: below)

/-- Lowers layers one after the other, the first of which reads `input`. The layer with number
`last` writes the output. -/
def lowerLayers (last : LayerId) (input : VarId) :
    List (Layer × LayerId) → Build → Pass (Build × List Stmt)
  | [], b => return (b, [])
  | (layer, l) :: rest, b => do
    let (output, b) := if l = last then (Kernel.outputVar, b)
      else (Emit.declare s!"layer{l}" layer.vectorTy).run b
    let es ← ensembles l
    let (b, here) ← lowerEnsembles input output es b
    let (b, below) ← lowerLayers last output rest b
    let head := if l = last then here else .define output :: here
    return (b, head ++ below)

/-- Checks a network and lowers it to a kernel. -/
def lower : Pass Kernel := do
  check
  let net ← network
  let width (l : Option Layer) : Ty := (l.getD {}).vectorTy
  let start := Kernel.new (width net.layers[0]?) (width net.layers.back?)
  let (b, body) ← lowerLayers (net.layers.size - 1) Kernel.inputVar net.loweredLayers
    { vars := start.vars }
  report (.lowered net.layers.size body.length b.tables.size)
  return { vars := b.vars, arena := { nodes := b.nodes }, tables := b.tables, body }

end Pass

end Synapse
