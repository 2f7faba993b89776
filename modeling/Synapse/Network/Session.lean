import Synapse.Expr.Shape
import Synapse.Network.Construction
import Synapse.Network.Event

namespace Synapse

/-- A network under work together with what has been reported. -/
structure Session where
  net : Network := {}
  log : Array Event := #[]

/-- What a pass did and reported stays when it stops. -/
abbrev Pass := EStateM Failure Session

namespace Pass

def report (e : Event) : Pass Unit := modify fun s => { s with log := s.log.push e }

def network : Pass Network := return (← get).net

def setNetwork (net : Network) : Pass Unit := modify fun s => { s with net }

/-- Runs a search for types in the network and keeps what it finds. -/
def typing {α : Type} (x : Network → Typing α) : Pass α :=
  Typing.on (·.net.arena.types)
    (fun s types => { s with net := { s.net with arena := { s.net.arena with types } } })
    fun s => x s.net

def infer (id : NodeId) : Pass Ty := typing fun net => Synapse.infer net.arena.nodes net.env id

def sameShape (a b : NodeId) : Pass Bool :=
  typing fun net => Synapse.sameShape net.arena.nodes net.env a b

def neuron (n : NeuronId) : Pass Neuron := do orDefect ((← network).neuron n)

def layer (l : LayerId) : Pass Layer := do orDefect ((← network).layer l)

def addLayer : Pass LayerId := do
  let (net, l) := (← network).addLayer
  setNetwork net
  return l

def addNeuron (l : LayerId) (kind : NeuronKind) : Pass NeuronId := do
  let (net, n) ← orDefect ((← network).addNeuron l kind)
  setNetwork net
  return n

def connect (src sink : NeuronId) : Pass Unit := do
  setNetwork (← orFail ((← network).connect src sink))

/-- Connects two layers. No edge is added before all of them have been found and permitted. -/
def connectLayers (src sink : LayerId) (wanted : Network.Connections) : Pass Unit := do
  let edges ← orFail ((← network).edgesBetween src sink wanted)
  report (.connecting src sink edges.length)
  edges.forM fun e => connect e.1 e.2

def setForward (n : NeuronId) (s : Sketch) : Pass NodeId := do
  let (net, root) := (← network).setForward n s
  setNetwork net
  orDefect root

def addProperty (n : NeuronId) (name : String) (value : Property) : Pass Nat := do
  let (net, i) ← orDefect ((← network).addProperty n name value)
  setNetwork net
  return i

end Pass

end Synapse
