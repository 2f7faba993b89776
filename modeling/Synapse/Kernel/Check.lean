import Synapse.Kernel.Basic

namespace Synapse.Kernel

def isEntry (k : Kernel) (id : NodeId) : Bool :=
  match k.arena.nodes[id]? with
  | some (.entry _ _) => true
  | _ => false

def isTarget (k : Kernel) (id : NodeId) : Bool :=
  match k.arena.nodes[id]? with
  | some n => n.isTarget
  | none => false

/-- Both sides must agree up to lengths, and only a row of a table is assigned as a whole vector. -/
def checkAssign (k : Kernel) (lhs rhs : NodeId) : Typing Unit := do
  let t ← k.infer lhs
  let u ← k.infer rhs
  if !t.agrees u then orTypeError (.error (.assignmentMismatch t u))
  else if t.isVector && !k.isEntry rhs then orTypeError (.error (.vectorAssignment t))
  else if !k.isTarget lhs then orTypeError (.error .notATarget)
  else pure ()

def checkBound (k : Kernel) (id : NodeId) : Typing Unit := do
  let t ← k.infer id
  if t.isVector then orTypeError (.error (.vectorBound t)) else pure ()

mutual

def checkStmt (k : Kernel) : Stmt → Typing Unit
  | .define _ => pure ()
  | .assign lhs rhs => k.checkAssign lhs rhs
  | .loop _ start stop body => do
    k.checkBound start
    k.checkBound stop
    k.checkBody body

def checkBody (k : Kernel) : List Stmt → Typing Unit
  | [] => pure ()
  | s :: rest => do
    k.checkStmt s
    k.checkBody rest

end

/-- Checks all statements in order and stops at the first that is ill typed. -/
def check (k : Kernel) : Typing Unit := k.checkBody k.body

end Synapse.Kernel
