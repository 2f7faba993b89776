import Synapse.Network.Basic

namespace Synapse.Network

/-- Drops the ensembles stored for a layer. -/
def invalidate (net : Network) (l : LayerId) : Network :=
  { net with layers := net.layers.modify l fun x => { x with ensembles := none } }

def addLayer (net : Network) : Network × LayerId :=
  ({ net with layers := net.layers.push {} }, net.layers.size)

def addNeuron (net : Network) (l : LayerId) (kind : NeuronKind) :
    Except Defect (Network × NeuronId) := do
  let layer ← net.layer l
  let id := net.neurons.size
  let layer' : Layer := { neurons := layer.neurons ++ [id] }
  return ({ net with
      neurons := net.neurons.push { kind, layer := l, position := layer.neurons.length }
      layers := net.layers.setIfInBounds l layer' }, id)

/-- Records an edge at both of its ends. The types found so far are dropped, since the input type of
the sink changes. -/
def addEdge (net : Network) (src sink : NeuronId) : Network :=
  { net with
    neurons := (net.neurons.modify src fun n => { n with sinks := n.sinks ++ [sink] }).modify sink
      fun n => { n with sources := n.sources ++ [src] }
    arena := net.arena.clearTypes }

/-- The neuron that an edge feeds, if the edge is permitted. -/
def sinkOf (net : Network) (src sink : NeuronId) : Except Failure Neuron := do
  let m ← orDefect (net.neuron src)
  if m.isOutput then throw (.error (.graph .outputAsSource))
  else
    let n ← orDefect (net.neuron sink)
    if n.isInput then throw (.error (.graph .inputAsSink))
    else return n

/-- Adds an edge. Adding it twice records it twice; an edge that is refused changes nothing. -/
def connect (net : Network) (src sink : NeuronId) : Except Failure Network := do
  let n ← net.sinkOf src sink
  return (net.addEdge src sink).invalidate n.layer

/-- The neuron at a position of a layer. -/
def neuronAt (net : Network) (l : LayerId) (position : Nat) : Except Failure NeuronId := do
  let layer ← orDefect (net.layer l)
  match layer.neurons[position]? with
  | some n => return n
  | none => throw (.error (.graph (.unknownNeuron l position)))

/-- For each position of a layer, the positions of the sources that feed it. -/
abbrev Connections := Nat → Option (List Nat)

/-- The edge into `sink` from a position of another layer, if it is permitted. -/
def edgeFrom (net : Network) (src : LayerId) (sink : NeuronId) (position : Nat) :
    Except Failure (NeuronId × NeuronId) := do
  let source ← net.neuronAt src position
  let _ ← net.sinkOf source sink
  return (source, sink)

/-- The edges into one position of a layer. -/
def edgesInto (net : Network) (src sink : LayerId) (wanted : Connections) (position : Nat) :
    Except Failure (List (NeuronId × NeuronId)) := do
  match wanted position with
  | none => throw (.error (.graph (.missingConnections sink position)))
  | some sources =>
    let n ← net.neuronAt sink position
    sources.mapM (net.edgeFrom src n)

/-- The edges that connect two layers, all of them permitted. -/
def edgesBetween (net : Network) (src sink : LayerId) (wanted : Connections) :
    Except Failure (List (NeuronId × NeuronId)) := do
  let layer ← orDefect (net.layer sink)
  let edges ← (List.range layer.neurons.length).mapM (net.edgesInto src sink wanted)
  return edges.flatten

/-- Sets the expression that computes a neuron. The expression is appended to the arena before
the neuron is looked up. -/
def setForward (net : Network) (n : NeuronId) (s : Sketch) : Network × Except Defect NodeId :=
  let (arena, id) := net.arena.intern s
  match net.neuron n with
  | .error d => ({ net with arena }, .error d)
  | .ok neuron =>
    let neurons := net.neurons.modify n fun x => { x with forward := some id }
    (invalidate { net with arena, neurons } neuron.layer, .ok id)

/-- Attaches a named constant to a neuron and gives its index. -/
def addProperty (net : Network) (n : NeuronId) (name : String) (value : Property) :
    Except Defect (Network × Nat) := do
  let neuron ← net.neuron n
  let neurons := net.neurons.modify n fun x =>
    { x with properties := x.properties ++ [(name, value)] }
  return ({ net with neurons }, neuron.properties.length)

end Synapse.Network
