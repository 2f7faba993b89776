import Synapse.Network.Session

namespace Synapse

/-- A type in which the length of a vector is known. -/
inductive Extent where
  | scalar (s : Scalar)
  | vector (elem : Scalar) (len : Nat)
deriving DecidableEq, Inhabited

namespace Extent

def ty : Extent → Ty
  | scalar s => .scalar s
  | vector s n => .vector s (some n)

/-- The number of elements of a vector. -/
def len : Extent → Nat
  | scalar _ => 0
  | vector _ n => n

end Extent

def Ty.extent? : Ty → Option Extent
  | .scalar s => some (.scalar s)
  | .vector s (some n) => some (.vector s n)
  | .vector _ none => none

inductive Step where
  /-- The literal of the given rank, in pre-order. -/
  | literal (rank : Nat)
  | unary (op : Unary) (x : Nat)
  | binary (op : Binary) (l r : Nat)
  | input
  | reduce (kind : Reduction) (x : Nat)
  | activate (name : String) (x : Nat)
deriving DecidableEq

/-- The step that computes a node, given the steps of its operands and its rank among the
literals. Nodes that occur in kernels only have no step. -/
def Node.step? (place : NodeId → Nat) (rank : Nat) : Node → Option Step
  | .literal _ => some (.literal rank)
  | .unary op x => some (.unary op (place x))
  | .binary .max _ _ => none
  | .binary op l r => some (.binary op (place l) (place r))
  | .input _ => some .input
  | .reduce kind x => some (.reduce kind (place x))
  | .activate name x => some (.activate name (place x))
  | .var _ | .element _ _ | .entry _ _ => none

/-- A step together with the type of its result. -/
structure Line where
  step : Step
  extent : Extent
deriving DecidableEq

/-- The steps of an expression in the order in which they are computed. They name their operands by
step and literals by rank, so expressions of one shape have one recipe. -/
abbrev Recipe := List Line

/-- Whether a recipe reads inputs through the wiring of its ensemble. -/
def Recipe.readsVector (r : Recipe) : Bool :=
  r.any fun line => line.step == .input && line.extent.len != 0

namespace Pass

/-- The type of a node that has passed the type check. -/
def typeOf (id : NodeId) : Pass Ty := do
  match ← attempt (infer id) with
  | .ok t => pure t
  | .error e => throw (.defect (.illTyped e))

def lineOf (order literals : List NodeId) (id : NodeId) : Pass Line := do
  let t ← typeOf id
  let nodes := (← network).arena.nodes
  match nodes[id]?.bind (Node.step? order.idxOf (literals.idxOf id)), t.extent? with
  | none, _ => throw (.defect (.loweredNode id))
  | _, none => throw (.defect (.unknownLength id))
  | some step, some extent => return { step, extent }

/-- The recipe of an expression that has passed the type check. -/
def recipeOf (root : NodeId) : Pass Recipe := do
  let nodes := (← network).arena.nodes
  let order := (Arena.dag nodes).postorder root
  order.mapM (lineOf order ((Arena.literals nodes root).map (·.1)))

end Pass

end Synapse
