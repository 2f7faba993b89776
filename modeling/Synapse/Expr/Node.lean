import Synapse.Expr.Literal

namespace Synapse

abbrev NodeId := Nat
abbrev NeuronId := Nat
abbrev LayerId := Nat
abbrev VarId := Nat
abbrev TableId := Nat

def nodeLabel (id : NodeId) : String := s!"v{id}"
def neuronLabel (id : NeuronId) : String := s!"n{id}"
def varLabel (id : VarId) : String := s!"var{id}"
def tableLabel (id : TableId) : String := s!"vs{id}"

inductive Unary where
  | plus
  | minus
deriving DecidableEq

def Unary.name : Unary → String
  | plus => "plus"
  | minus => "minus"

inductive Binary where
  | add
  | sub
  | mul
  | div
  | max
deriving DecidableEq

def Binary.name : Binary → String
  | add => "add"
  | sub => "sub"
  | mul => "mul"
  | div => "div"
  | max => "max"

inductive Reduction where
  | sum
  | product
  | max
deriving DecidableEq

namespace Reduction

def name : Reduction → String
  | sum => "sum"
  | product => "product"
  | max => "max"

/-- The operator that folds one more element into the result. -/
def operator : Reduction → Binary
  | sum => .add
  | product => .mul
  | max => .max

end Reduction

/-- A node names its operands by number, so that expressions can share them. Variables, elements,
table entries and the binary maximum occur in kernels only. -/
inductive Node where
  | literal (c : Literal)
  | unary (op : Unary) (x : NodeId)
  | binary (op : Binary) (l r : NodeId)
  /-- The inputs of a neuron: one number for an input neuron, a vector for any other. -/
  | input (n : NeuronId)
  | reduce (kind : Reduction) (x : NodeId)
  | activate (name : String) (x : NodeId)
  | var (v : VarId)
  | element (v : VarId) (index : NodeId)
  /-- The entry of a table that belongs to a loop index. -/
  | entry (t : TableId) (index : NodeId)
deriving DecidableEq

namespace Node

/-- Operands in the order in which they are evaluated. -/
def operands : Node → List NodeId
  | literal _ | input _ | var _ => []
  | unary _ x | reduce _ x | activate _ x | element _ x | entry _ x => [x]
  | binary _ l r => [l, r]

def literal? : Node → Option Literal
  | literal c => some c
  | _ => none

def isLiteral (n : Node) : Bool := n.literal?.isSome

/-- Whether the node can stand on the left of an assignment. -/
def isTarget : Node → Bool
  | var _ | element _ _ => true
  | _ => false

def mnemonic : Node → String
  | literal _ => "constant"
  | unary op _ => op.name
  | binary op _ _ => op.name
  | input _ => "input"
  | reduce kind _ => "reduce." ++ kind.name
  | activate name _ => name
  | var _ => "var"
  | element _ _ => "index"
  | entry _ _ => "getvalue"

end Node

end Synapse
