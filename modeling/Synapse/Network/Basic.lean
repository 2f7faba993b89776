import Synapse.Expr.Sketch
import Synapse.Expr.Typing

namespace Synapse

inductive NeuronKind where
  | hidden
  /-- Reads one element of the network's input and has no sources. -/
  | input
  /-- Gives one element of the network's output and has no sinks. -/
  | output
deriving DecidableEq

/-- A named constant that a neuron carries along. -/
inductive Property where
  | scalar (x : Binary64)
  | vector (xs : List Binary64)
deriving DecidableEq

structure Neuron where
  kind : NeuronKind
  layer : LayerId
  position : Nat
  sources : List NeuronId := []
  sinks : List NeuronId := []
  forward : Option NodeId := none
  properties : List (String × Property) := []
deriving DecidableEq

namespace Neuron

def isInput (n : Neuron) : Bool := n.kind == .input

def isOutput (n : Neuron) : Bool := n.kind == .output

def inputTy (n : Neuron) : Ty :=
  if n.isInput then .real else .vectorOf .real n.sources.length

def property? (n : Neuron) (name : String) : Option Property := n.properties.lookup name

end Neuron

/-- A run of neurons in one layer that one loop computes. The expression of the first member, the
representative, becomes the body of the loop; the others only contribute their literals. -/
structure Ensemble where
  layer : LayerId
  start : Nat
  representative : NeuronId
  others : List NeuronId
deriving DecidableEq

namespace Ensemble

def neurons (e : Ensemble) : List NeuronId := e.representative :: e.others

/-- One past the position of the last member. -/
def stop (e : Ensemble) : Nat := e.start + e.neurons.length

end Ensemble

structure Layer where
  neurons : List NeuronId := []
  /-- What grouping found, until the layer changes. -/
  ensembles : Option (List Ensemble) := none
deriving DecidableEq

/-- Layers of neurons, and the expressions that compute these. Each edge is recorded at both of its
ends. -/
structure Network where
  layers : Array Layer := #[]
  neurons : Array Neuron := #[]
  arena : Arena := {}

namespace Network

def layer (net : Network) (l : LayerId) : Except Defect Layer :=
  match net.layers[l]? with
  | some x => .ok x
  | none => .error (.outOfRange net.layers.size l)

def neuron (net : Network) (n : NeuronId) : Except Defect Neuron :=
  match net.neurons[n]? with
  | some x => .ok x
  | none => .error (.outOfRange net.neurons.size n)

/-- Inside a network, inputs of neurons have types, and variables and tables mean nothing. -/
def env (net : Network) : Env :=
  { Env.closed with input := fun n => (net.neuron n).map Neuron.inputTy }

end Network

end Synapse
