import Synapse.Expr.Typing

namespace Synapse

structure Variable where
  name : String
  ty : Ty
deriving DecidableEq

/-- Literals of one type; entry `i` belongs to the loop index `first + i`. -/
structure Table where
  elem : Ty
  first : Nat
  entries : List Literal := []
deriving DecidableEq

namespace Table

/-- The literal that belongs to a loop index. -/
def get? (t : Table) (index : Nat) : Option Literal :=
  if t.first ≤ index then t.entries[index - t.first]? else none

def text (t : Table) (id : TableId) : String :=
  s!"valueset {tableLabel id} : {t.elem.text} @ {t.first} = \x7b " ++
    ", ".intercalate (t.entries.map Literal.text) ++ " \x7d"

end Table

inductive Stmt where
  /-- Brings a vector into scope before its elements are filled in. -/
  | define (v : VarId)
  | assign (lhs rhs : NodeId)
  /-- Runs the body for each index from `start` up to, but not including, `stop`. -/
  | loop (index : VarId) (start stop : NodeId) (body : List Stmt)

/-- The forward computation of a network as a program with loops. It reads the vector `input` and
fills the vector `output`. Literals that differ from neuron to neuron stand in tables, which loops
address with their index. -/
structure Kernel where
  vars : Array Variable
  arena : Arena := {}
  tables : Array Table := #[]
  body : List Stmt := []

namespace Kernel

/-- A kernel that does nothing, with the types of its two parameters. -/
def new (input output : Ty) : Kernel where
  vars := #[⟨"input", input⟩, ⟨"output", output⟩]

def inputVar : VarId := 0
def outputVar : VarId := 1

def var (k : Kernel) (v : VarId) : Except Defect Variable :=
  match k.vars[v]? with
  | some x => .ok x
  | none => .error (.outOfRange k.vars.size v)

def table (k : Kernel) (t : TableId) : Except Defect Table :=
  match k.tables[t]? with
  | some x => .ok x
  | none => .error (.outOfRange k.tables.size t)

/-- Whether the table that a node reads, if it reads one, is there. -/
def hasTableOf (k : Kernel) : Node → Bool
  | .entry t _ => t < k.tables.size
  | _ => true

/-- Inside a kernel, variables and tables have types, and inputs of neurons mean nothing. -/
def env (k : Kernel) : Env :=
  { Env.closed with
    var := fun v => (k.var v).map Variable.ty
    table := fun t => (k.table t).map Table.elem }

def declare (k : Kernel) (name : String) (ty : Ty) : Kernel × VarId :=
  ({ k with vars := k.vars.push ⟨name, ty⟩ }, k.vars.size)

def pushNode (k : Kernel) (n : Node) : Kernel × NodeId :=
  ({ k with arena := k.arena.push n }, k.arena.nodes.size)

def addTable (k : Kernel) (elem : Ty) (first : Nat) : Kernel × TableId :=
  ({ k with tables := k.tables.push { elem, first } }, k.tables.size)

def pushStmt (k : Kernel) (s : Stmt) : Kernel := { k with body := k.body ++ [s] }

end Kernel

/-- Appends a literal to the table with number `id`, whose element type it must have up to
lengths. -/
def Table.add (t : Table) (id : TableId) (c : Literal) : Except Defect Table :=
  if c.ty.agrees t.elem then .ok { t with entries := t.entries ++ [c] }
  else .error (.entryType c id t.elem)

namespace Kernel

/-- Appends a literal to a table and gives its slot. -/
def addEntry (k : Kernel) (id : TableId) (c : Literal) : Except Defect (Kernel × Nat) := do
  let t ← k.table id
  let t' ← t.add id c
  return ({ k with tables := k.tables.setIfInBounds id t' }, t.entries.length)

/-- Runs a search for types in a kernel and keeps what it finds. -/
def typing {α : Type} (x : Kernel → Typing α) : EStateM Failure Kernel α :=
  Typing.on (·.arena.types) (fun k types => { k with arena := { k.arena with types } }) x

/-- The outcome of a search for types in a kernel. -/
def run {α : Type} (k : Kernel) (x : Kernel → Typing α) : Except Failure α :=
  match x k k.arena.types with
  | .ok v _ => .ok v
  | .error e _ => .error e

def infer (k : Kernel) (id : NodeId) : Typing Ty := Synapse.infer k.arena.nodes k.env id

end Kernel

end Synapse
