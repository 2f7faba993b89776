import Synapse.Expr.Arena

namespace Synapse

inductive Arith where
  | add
  | sub
  | mul
  | div
deriving DecidableEq

def Arith.binary : Arith → Binary
  | add => .add
  | sub => .sub
  | mul => .mul
  | div => .div

inductive Term where
  | literal (c : Literal)
  | unary (op : Unary) (x : Nat)
  | binary (op : Arith) (l r : Nat)
  | input (n : NeuronId)
  | reduce (kind : Reduction) (x : Nat)
  | activate (name : String) (x : Nat)
deriving DecidableEq

namespace Term

def operands : Term → List Nat
  | literal _ | input _ => []
  | unary _ x | reduce _ x | activate _ x => [x]
  | binary _ l r => [l, r]

/-- The node for a term whose operands are found at `place`. -/
def node (place : Nat → NodeId) : Term → Node
  | literal c => .literal c
  | unary op x => .unary op (place x)
  | binary op l r => .binary op.binary (place l) (place r)
  | input n => .input n
  | reduce kind x => .reduce kind (place x)
  | activate name x => .activate name (place x)

end Term

/-- Whether each of the lines, the first of which has number `n`, names earlier lines only. -/
def Term.ordered (n : Nat) : List Term → Bool
  | [] => true
  | t :: rest => t.operands.all (· < n) && ordered (n + 1) rest

theorem Term.lt_of_ordered {n i : Nat} {ts : List Term} {t : Term} (h : ordered n ts = true)
    (ht : ts[i]? = some t) : ∀ x ∈ t.operands, x < n + i := by
  induction ts generalizing n i with
  | nil => simp at ht
  | cons u rest ih =>
    simp only [ordered, Bool.and_eq_true, List.all_eq_true, decide_eq_true_eq] at h
    cases i with
    | zero =>
      obtain rfl : u = t := by simpa using ht
      exact h.1
    | succ i =>
      intro x hx
      have := ih h.2 (by simpa using ht) x hx
      omega

/-- An expression as a caller writes it down, one term a line, each naming earlier lines by number.
The last line is the expression itself. A line that is named twice is shared. -/
structure Sketch where
  above : List Term
  last : Term
  ordered : Term.ordered 0 (above ++ [last]) = true := by rfl

namespace Sketch

/-- The sketch with the given lines, if there are any and each names earlier ones only. -/
def ofLines? (lines : List Term) : Option Sketch :=
  match lines.getLast? with
  | none => none
  | some last =>
    if h : Term.ordered 0 (lines.dropLast ++ [last]) = true then some ⟨lines.dropLast, last, h⟩
    else none

def lines (s : Sketch) : List Term := s.above ++ [s.last]

def operandsOf (s : Sketch) (i : Nat) : List Nat :=
  match s.lines[i]? with
  | none => []
  | some t => t.operands

theorem operandsOf_lt (s : Sketch) (i x : Nat) (h : x ∈ s.operandsOf i) : x < i := by
  unfold operandsOf at h
  split at h
  · simp at h
  · rename_i t ht
    simpa using Term.lt_of_ordered s.ordered ht x h

def dag (s : Sketch) : Dag := ⟨s.operandsOf, s.operandsOf_lt⟩

/-- The lines the expression needs, each after those it names, left before right. -/
def order (s : Sketch) : List Nat := s.dag.postorder s.above.length

/-- The nodes for the lines in `order`, if the first of them gets the number `base`. -/
def nodes (s : Sketch) (order : List Nat) (base : NodeId) : List Node :=
  let place (x : Nat) : NodeId := base + order.idxOf x
  order.filterMap fun (i : Nat) => s.lines[i]?.map (·.node place)

end Sketch

namespace Arena

/-- Appends an expression, keeping shared lines shared, and gives the number of its root. -/
def intern (a : Arena) (s : Sketch) : Arena × NodeId :=
  let base := a.nodes.size
  let order := s.order
  ({ a with nodes := a.nodes ++ (s.nodes order base).toArray }, base + order.idxOf s.above.length)

end Arena

end Synapse
