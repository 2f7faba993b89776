import Synapse.Network.Grouping

namespace Synapse

/-- A node as one expression. -/
def expressionText (nodes : Array Node) (id : NodeId) : String :=
  match Arena.find? nodes id with
  | none => nodeLabel id
  | some ⟨.literal c, _⟩ => c.text
  | some ⟨.input n, _⟩ => s!"input({neuronLabel n})"
  | some ⟨.unary op x, _⟩ => s!"{op.name}({expressionText nodes x})"
  | some ⟨.binary op l r, _⟩ =>
    s!"{op.name}({expressionText nodes l}, {expressionText nodes r})"
  | some ⟨.reduce kind x, _⟩ => s!"reduce.{kind.name}({expressionText nodes x})"
  | some ⟨.activate name x, _⟩ => s!"{name}({expressionText nodes x})"
  | some ⟨.var v, _⟩ => varLabel v
  | some ⟨.element v x, _⟩ => s!"{varLabel v}[{expressionText nodes x}]"
  | some ⟨.entry t x, _⟩ => s!"getvalue({tableLabel t}, {expressionText nodes x})"
termination_by id
decreasing_by all_goals rename_i h; exact h _ (by simp [Node.operands])

def NeuronKind.tag : NeuronKind → String
  | hidden => "neuron"
  | input => "inputneuron"
  | output => "outputneuron"

namespace Network

/-- The neurons at one end of edges, by their positions. -/
def endsText (net : Network) (tag : String) (ids : List NeuronId) : String :=
  let line (n : Neuron) : String := s!"\t\t\t\t<id>{n.position}</id>\n"
  s!"\t\t\t<{tag}>\n" ++ String.join ((ids.filterMap (net.neurons[·]?)).map line) ++
    s!"\t\t\t</{tag}>\n"

def neuronText (net : Network) (n : Neuron) : String :=
  let tag := n.kind.tag
  let sources := if n.isInput then "" else net.endsText "sources" n.sources
  let sinks := if n.isOutput then "" else net.endsText "sinks" n.sinks
  let forward := match n.forward with
    | none => ""
    | some root => s!"\t\t\t<forwardvalue>{expressionText net.arena.nodes root}</forwardvalue>\n"
  s!"\t\t<{tag}>\n{sources}{sinks}{forward}\t\t</{tag}>\n"

def layerText (net : Network) (l : Layer) : String :=
  "\t<layer>\n" ++ String.join ((l.neurons.filterMap (net.neurons[·]?)).map net.neuronText) ++
    "\t</layer>\n"

def listing (net : Network) : String :=
  "<net>\n" ++ String.join (net.layers.toList.map net.layerText) ++ "</net>\n"

end Network

namespace Pass

def ensemblesText (l : LayerId) : Pass String := do
  let es ← ensembles l
  return String.join (es.map fun e => s!"layer {l}: [{e.start}, {e.stop})\n")

/-- One line for each ensemble, layer by layer. -/
def ensembleListing : Pass String := do
  let net ← network
  return String.join (← (List.range net.layers.size).mapM ensemblesText)

end Pass

end Synapse
