import Std.Data.TreeMap
import Synapse.Expr.Dag
import Synapse.Expr.Node

namespace Synapse

/-- The types found so far, by node. -/
abbrev Types := Std.TreeMap NodeId Ty

/-- The nodes of expressions, and the types found for them so far. Nodes are only ever appended. -/
structure Arena where
  nodes : Array Node := #[]
  types : Types := ∅

namespace Arena

/-- Every operand comes before its user. -/
def Ordered (nodes : Array Node) : Prop :=
  ∀ (id : NodeId) (n : Node), nodes[id]? = some n → ∀ x ∈ n.operands, x < id

/-- Whether the operands of a node are all there. -/
def admits (a : Arena) (n : Node) : Bool := n.operands.all (· < a.nodes.size)

def push (a : Arena) (n : Node) : Arena := { a with nodes := a.nodes.push n }

/-- Forgets the types, which is needed when what they depend on has changed. -/
def clearTypes (a : Arena) : Arena := { a with types := ∅ }

/-- The node with a given number, if it is there and its operands come before it. -/
def find? (nodes : Array Node) (id : NodeId) : Option { n : Node // ∀ x ∈ n.operands, x < id } :=
  match nodes[id]? with
  | none => none
  | some n => if h : ∀ x ∈ n.operands, x < id then some ⟨n, h⟩ else none

def operandsOf (nodes : Array Node) (id : NodeId) : List NodeId :=
  match nodes[id]? with
  | none => []
  | some n => n.operands.filter (· < id)

theorem operandsOf_lt (nodes : Array Node) (id x : NodeId) (h : x ∈ operandsOf nodes id) :
    x < id := by
  unfold operandsOf at h
  split at h <;> simp_all

/-- The graph of operands. -/
def dag (nodes : Array Node) : Dag := ⟨operandsOf nodes, operandsOf_lt nodes⟩

/-- The literals that `root` reaches, in pre-order. -/
def literals (nodes : Array Node) (root : NodeId) : List (NodeId × Literal) :=
  ((dag nodes).preorder root).filterMap fun (id : NodeId) =>
    (nodes[id]?.bind Node.literal?).map (id, ·)

/-- The neurons whose inputs are read below `root`, in pre-order. -/
def inputNeurons (nodes : Array Node) (root : NodeId) : List NeuronId :=
  ((dag nodes).preorder root).filterMap fun (id : NodeId) =>
    match nodes[id]? with
    | some (.input n) => some n
    | _ => none

end Arena

end Synapse
