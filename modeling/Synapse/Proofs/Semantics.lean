import Mathlib.Tactic
import Synapse.Kernel.Basic
import Synapse.Network.Basic
import Synapse.Proofs.Orders

namespace Synapse

/-- What literals and scalar operators mean. -/
structure Interpretation (S : Type) where
  int : Int → S
  bool : Bool → S
  real : Binary64 → S
  unary : Unary → S → S
  binary : Binary → S → S → S
  activate : String → S → S

inductive Datum (S : Type) where
  | scalar (v : S)
  | vector (vs : List S)

namespace Datum

variable {S T : Type}

def scalar? : Datum S → Option S
  | scalar v => some v
  | vector _ => none

def map (f : S → T) : Datum S → Datum T
  | scalar v => scalar (f v)
  | vector vs => vector (vs.map f)

/-- Scalars broadcast over vectors, and of two vectors the longer is cut. -/
def zip (f : S → S → S) : Datum S → Datum S → Datum S
  | scalar a, scalar b => scalar (f a b)
  | scalar a, vector bs => vector (bs.map (f a))
  | vector as, scalar b => vector (as.map (f · b))
  | vector as, vector bs => vector (List.zipWith f as bs)

/-- Folds a vector from its first element on. -/
def fold (f : S → S → S) : Datum S → Option (Datum S)
  | vector (a :: as) => some (scalar (as.foldl f a))
  | _ => none

end Datum

section

variable {S : Type}

def Interpretation.literal (I : Interpretation S) : Literal → Datum S
  | .int n => .scalar (I.int n)
  | .bool b => .scalar (I.bool b)
  | .real x => .scalar (I.real x)
  | .vec xs => .vector (xs.map I.real)

/-- The value of a node, given those of its operands and of the inputs of neurons. -/
def Node.valueBy (I : Interpretation S) (inputs : NeuronId → Option (Datum S))
    (of : NodeId → Option (Datum S)) : Node → Option (Datum S)
  | .literal c => some (I.literal c)
  | .unary op x => (of x).map (Datum.map (I.unary op))
  | .binary op l r => do
    let a ← of l
    let b ← of r
    return a.zip (I.binary op) b
  | .input n => inputs n
  | .reduce kind x => (of x).bind (Datum.fold (I.binary kind.operator))
  | .activate name x => do
    let v ← (← of x).scalar?
    return .scalar (I.activate name v)
  | .var _ | .element _ _ | .entry _ _ => none

def valueOf (nodes : Array Node) (I : Interpretation S) (inputs : NeuronId → Option (Datum S))
    (id : NodeId) : Option (Datum S) :=
  match Arena.find? nodes id with
  | none => none
  | some n => n.1.valueBy I inputs fun x => if x < id then valueOf nodes I inputs x else none
termination_by id

theorem Node.valueBy_congr {I : Interpretation S} {inputs : NeuronId → Option (Datum S)}
    {f g : NodeId → Option (Datum S)} {n : Node} (h : ∀ x ∈ n.operands, f x = g x) :
    n.valueBy I inputs f = n.valueBy I inputs g := by
  cases n <;> simp_all [Node.valueBy, Node.operands]

theorem valueOf_node {nodes : Array Node} (ho : Arena.Ordered nodes) {I : Interpretation S}
    {inputs : NeuronId → Option (Datum S)} {id : NodeId} {n : Node} (hn : nodes[id]? = some n) :
    valueOf nodes I inputs id = n.valueBy I inputs (valueOf nodes I inputs) := by
  rw [valueOf, Arena.find?_eq ho hn]
  exact Node.valueBy_congr fun x hx => if_pos (ho id n hn x hx)

namespace Network

/-- The activation of a neuron with the given inputs. An input neuron without an expression passes
its input on. -/
def fire (net : Network) (I : Interpretation S) (n : NeuronId) (inputs : Option (Datum S)) :
    Option S := do
  let x ← net.neurons[n]?
  match x.forward with
  | none => if x.isInput then (← inputs).scalar? else none
  | some root =>
    (← valueOf net.arena.nodes I (fun m => if m = n then inputs else none) root).scalar?

def layerOf (net : Network) (n : NeuronId) : LayerId :=
  match net.neurons[n]? with
  | some x => x.layer
  | none => 0

/-- The activation of a neuron when the network reads `input`. An input neuron reads the element at
its own position, any other neuron the activations of its sources in earlier layers. -/
def activation (net : Network) (I : Interpretation S) (input : List S) (n : NeuronId) :
    Option S := do
  let x ← net.neurons[n]?
  net.fire I n <|
    if x.isInput then input[x.position]?.map .scalar
    else (x.sources.mapM fun s =>
      if net.layerOf s < net.layerOf n then net.activation I input s else none).map .vector
termination_by net.layerOf n

end Network

/-- A scalar in a running kernel: its value, and the integer that it is, if it was computed from
integers. Only integers are used as indices and as bounds of loops. -/
structure Word (S : Type) where
  value : S
  integer : Option Int := none

def Unary.onInt : Unary → Int → Int
  | plus, n => n
  | minus, n => -n

def Binary.onInt? : Binary → Int → Int → Option Int
  | add, m, n => some (m + n)
  | sub, m, n => some (m - n)
  | mul, m, n => some (m * n)
  | max, m, n => some (Max.max m n)
  | div, _, _ => none

namespace Interpretation

def intWord (I : Interpretation S) (n : Int) : Word S := { value := I.int n, integer := some n }

def unaryWord (I : Interpretation S) (op : Unary) (w : Word S) : Word S :=
  { value := I.unary op w.value, integer := w.integer.map op.onInt }

def binaryWord (I : Interpretation S) (op : Binary) (l r : Word S) : Word S where
  value := I.binary op l.value r.value
  integer := do op.onInt? (← l.integer) (← r.integer)

def activateWord (I : Interpretation S) (name : String) (w : Word S) : Word S :=
  { value := I.activate name w.value }

def literalWords (I : Interpretation S) : Literal → Datum (Word S)
  | .int n => .scalar (I.intWord n)
  | c => (I.literal c).map fun v => { value := v }

end Interpretation

end

inductive Formula where
  | literal (c : Literal)
  | var (v : VarId)
  | element (v : VarId) (index : Formula)
  | entry (t : TableId) (index : Formula)
  | unary (op : Unary) (x : Formula)
  | binary (op : Binary) (l r : Formula)
  | activate (name : String) (x : Formula)

inductive Code where
  | define (v : VarId)
  | assign (lhs rhs : Formula)
  | loop (index : VarId) (start stop : Formula) (body : List Code)

/-- The formula for a node, given those for its operands. Kernels have no inputs of neurons and no
reductions. -/
def Node.formula? (of : NodeId → Option Formula) : Node → Option Formula
  | .literal c => some (.literal c)
  | .unary op x => (of x).map (.unary op)
  | .binary op l r => do return .binary op (← of l) (← of r)
  | .activate name x => (of x).map (.activate name)
  | .var v => some (.var v)
  | .element v x => (of x).map (.element v)
  | .entry t x => (of x).map (.entry t)
  | .input _ | .reduce _ _ => none

def formulaOf (nodes : Array Node) (id : NodeId) : Option Formula :=
  match Arena.find? nodes id with
  | none => none
  | some n => n.1.formula? fun x => if x < id then formulaOf nodes x else none
termination_by id

mutual

def Stmt.code? (nodes : Array Node) : Stmt → Option Code
  | .define v => some (.define v)
  | .assign lhs rhs => do return .assign (← formulaOf nodes lhs) (← formulaOf nodes rhs)
  | .loop index start stop body => do
    return .loop index (← formulaOf nodes start) (← formulaOf nodes stop) (← codesOf nodes body)

def codesOf (nodes : Array Node) : List Stmt → Option (List Code)
  | [] => some []
  | s :: rest => do return (← s.code? nodes) :: (← codesOf nodes rest)

end

inductive Fault where
  /-- A variable, or an element of one, is read before it has a value. -/
  | undefined (v : VarId)
  | outOfRange (v : VarId) (index : Int)
  | missingEntry (t : TableId) (index : Int)
  | illFormed
deriving DecidableEq

/-- Whether a run stopped at an index that does not exist. -/
def Fault.ofIndex : Fault → Bool
  | outOfRange _ _ | missingEntry _ _ => true
  | undefined _ | illFormed => false

/-- What a variable holds. Elements of a vector are filled in one by one. -/
inductive Cell (S : Type) where
  | scalar (w : Word S)
  | vector (slots : Nat → Option (Word S))

abbrev Store (S : Type) := VarId → Option (Cell S)

section

variable {S : Type}

def Store.set (σ : Store S) (v : VarId) (c : Cell S) : Store S := Function.update σ v (some c)

/-- Forgets the variables that have come into scope since `σ`. -/
def Store.leave (σ' σ : Store S) : Store S := fun v => if (σ v).isSome then σ' v else none

def Datum.word : Datum (Word S) → Except Fault (Word S)
  | scalar w => .ok w
  | vector _ => .error .illFormed

def Datum.index : Datum (Word S) → Except Fault Int
  | scalar { integer := some n, .. } => .ok n
  | _ => .error .illFormed

namespace Kernel

/-- The declared length of a vector. -/
def length (k : Kernel) (v : VarId) : Nat := (k.vars[v]?.bind (·.ty.len)).getD 0

def entry? (k : Kernel) (t : TableId) (i : Int) : Option Literal :=
  if 0 ≤ i then k.tables[t]?.bind (·.get? i.toNat) else none

/-- The slots of a vector, if the index lies within its declared length. -/
def slots (k : Kernel) (σ : Store S) (v : VarId) (i : Int) :
    Except Fault (Nat → Option (Word S)) :=
  if 0 ≤ i ∧ i < k.length v then
    match σ v with
    | none => .error (.undefined v)
    | some (.scalar _) => .error .illFormed
    | some (.vector slots) => .ok slots
  else .error (.outOfRange v i)

end Kernel

def Formula.eval (k : Kernel) (I : Interpretation S) (σ : Store S) :
    Formula → Except Fault (Datum (Word S))
  | literal c => .ok (I.literalWords c)
  | var v =>
    match σ v with
    | none => .error (.undefined v)
    | some (.scalar w) => .ok (.scalar w)
    | some (.vector _) => .error .illFormed
  | element v i => do
    let j ← (← i.eval k I σ).index
    match (← k.slots σ v j) j.toNat with
    | none => .error (.undefined v)
    | some w => .ok (.scalar w)
  | entry t i => do
    let j ← (← i.eval k I σ).index
    match k.entry? t j with
    | none => .error (.missingEntry t j)
    | some c => .ok (I.literalWords c)
  | unary op x => do return .scalar (I.unaryWord op (← (← x.eval k I σ).word))
  | binary op l r => do
    let a ← (← l.eval k I σ).word
    let b ← (← r.eval k I σ).word
    return .scalar (I.binaryWord op a b)
  | activate name x => do return .scalar (I.activateWord name (← (← x.eval k I σ).word))

namespace Formula

/-- The formula evaluates to a scalar of the given value. -/
def Yields (k : Kernel) (I : Interpretation S) (σ : Store S) (φ : Formula) (a : S) : Prop :=
  ∃ w, φ.eval k I σ = .ok (.scalar w) ∧ w.value = a

/-- The formula evaluates to the given integer. -/
def Indexes (k : Kernel) (I : Interpretation S) (σ : Store S) (φ : Formula) (i : Int) : Prop :=
  ∃ w, φ.eval k I σ = .ok (.scalar w) ∧ w.integer = some i

theorem indexes_var {k : Kernel} {I : Interpretation S} {σ : Store S} {v : VarId} {n : Int}
    (h : σ v = some (.scalar (I.intWord n))) : (var v).Indexes k I σ n :=
  ⟨I.intWord n, by simp [eval, h], rfl⟩

end Formula

/-- Assigns to a variable or to an element of one. -/
def Formula.assign (k : Kernel) (I : Interpretation S) (σ : Store S) (d : Datum (Word S)) :
    Formula → Except Fault (Store S)
  | var v =>
    match d with
    | .scalar w => .ok (σ.set v (.scalar w))
    | .vector ws => .ok (σ.set v (.vector (ws[·]?)))
  | element v i => do
    let w ← d.word
    let j ← (← i.eval k I σ).index
    let slots ← k.slots σ v j
    return σ.set v (.vector (Function.update slots j.toNat (some w)))
  | _ => .error .illFormed

mutual

def Code.exec (k : Kernel) (I : Interpretation S) : Code → Store S → Except Fault (Store S)
  | define v, σ => .ok (σ.set v (.vector fun _ => none))
  | assign lhs rhs, σ => do lhs.assign k I σ (← rhs.eval k I σ)
  | loop index start stop body, σ => do
    let a ← (← start.eval k I σ).index
    let b ← (← stop.eval k I σ).index
    (List.range (b - a).toNat).foldlM (fun σ (i : Nat) => do
      let σ' ← execs k I body (σ.set index (.scalar (I.intWord (a + i))))
      return σ'.leave σ) σ

def Code.execs (k : Kernel) (I : Interpretation S) : List Code → Store S → Except Fault (Store S)
  | [], σ => .ok σ
  | c :: rest, σ => do execs k I rest (← c.exec k I σ)

end

section

variable {k : Kernel} {I : Interpretation S} {σ : Store S}

theorem Code.execs_append (cs ds : List Code) (σ : Store S) :
    Code.execs k I (cs ++ ds) σ = Code.execs k I cs σ >>= Code.execs k I ds := by
  induction cs generalizing σ with
  | nil => rfl
  | cons c cs ih =>
    rw [List.cons_append, Code.execs, Code.execs]
    cases hc : c.exec k I σ with
    | error e => rfl
    | ok τ => exact ih τ

theorem Code.execs_cons {c : Code} {cs : List Code} {τ : Store S} (h : c.exec k I σ = .ok τ) :
    Code.execs k I (c :: cs) σ = Code.execs k I cs τ := by
  rw [Code.execs, h]
  rfl

theorem Code.execs_singleton (c : Code) (σ : Store S) :
    Code.execs k I [c] σ = c.exec k I σ := by
  rw [Code.execs]
  cases c.exec k I σ <;> rfl

end

namespace Kernel

/-- The store in which a kernel starts: the input is there, and the output is to be filled in. -/
def start (input : List S) : Store S := fun v =>
  if v = inputVar then some (.vector fun i => input[i]?.map fun v => { value := v })
  else if v = outputVar then some (.vector fun _ => none)
  else none

def execute (k : Kernel) (I : Interpretation S) (input : List S) : Except Fault (Store S) :=
  match codesOf k.arena.nodes k.body with
  | none => .error .illFormed
  | some cs => Code.execs k I cs (start input)

end Kernel

/-- The value at an index of a vector, if there is one. -/
def Store.at? (σ : Store S) (v : VarId) (i : Nat) : Option S :=
  match σ v with
  | some (.vector slots) => (slots i).map Word.value
  | _ => none

end

end Synapse
