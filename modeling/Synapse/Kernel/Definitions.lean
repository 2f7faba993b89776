import Synapse.Kernel.Listing

namespace Synapse.Kernel

/-- The variable that a node itself reads, its operands aside. -/
def readOf : Node → Option VarId
  | .var v | .element v _ => some v
  | _ => none

def failWith {α : Type} (e : DefinitionError) : Except Failure α :=
  .error (.error (.definition e))

/-- Checks what one node reads. -/
def definedAt (k : Kernel) (defined : List VarId) (id : NodeId) : Except Failure Unit :=
  match k.arena.nodes[id]?.bind readOf with
  | none => .ok ()
  | some v =>
    if v ∈ defined then .ok ()
    else do
      let var ← orDefect (k.var v)
      failWith (.undefinedRead var.name)

/-- Checks what an expression reads, node by node in pre-order. -/
def readsDefined (k : Kernel) (defined : List VarId) (id : NodeId) : Except Failure Unit :=
  ((Arena.dag k.arena.nodes).preorder id).forM (k.definedAt defined)

/-- The variable an assignment writes, after a check of what its target reads. -/
def targetOf (k : Kernel) (defined : List VarId) (lhs : NodeId) : Except Failure VarId :=
  match k.arena.nodes[lhs]? with
  | some (.var v) => .ok v
  | some (.element v x) => do
    k.readsDefined defined x
    return v
  | _ => do
    let text ← orDefect (k.nodeText lhs)
    failWith (.unassignable text)

mutual

/-- Checks a statement and gives the variables that are defined after it. -/
def defineStmt (k : Kernel) (defined : List VarId) : Stmt → Except Failure (List VarId)
  | .define v => .ok (v :: defined)
  | .assign lhs rhs => do
    k.readsDefined defined rhs
    let v ← k.targetOf defined lhs
    return v :: defined
  | .loop index start stop body => do
    k.readsDefined defined start
    k.readsDefined defined stop
    let _ ← k.defineBody (index :: defined) body
    return defined

def defineBody (k : Kernel) (defined : List VarId) : List Stmt → Except Failure (List VarId)
  | [] => .ok defined
  | s :: rest => do
    let defined ← k.defineStmt defined s
    k.defineBody defined rest

end

/-- Checks that each variable is defined before it is read: by being the parameter `input`, by an
enclosing loop, or by an earlier `define` or assignment in the same body or in an enclosing one.
What a loop's body defines is forgotten after the loop, which may run no time at all. -/
def checkDefinitions (k : Kernel) : Except Failure Unit := do
  let _ ← k.defineBody [inputVar] k.body
  return ()

end Synapse.Kernel
