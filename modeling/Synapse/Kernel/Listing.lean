import Synapse.Kernel.Basic

namespace Synapse.Kernel

/-- A node as one expression, with the names of the variables. -/
def nodeText (k : Kernel) (id : NodeId) : Except Defect String :=
  match Arena.find? k.arena.nodes id with
  | none => .error (.outOfRange k.arena.nodes.size id)
  | some ⟨.literal c, _⟩ => .ok c.text
  | some ⟨.var v, _⟩ => return (← k.var v).name
  | some ⟨.element v x, _⟩ => do
    let var ← k.var v
    let index ← k.nodeText x
    return s!"{var.name}[{index}]"
  | some ⟨.entry t x, _⟩ => do
    let index ← k.nodeText x
    return s!"getvalue({tableLabel t}, {index})"
  | some ⟨.unary op x, _⟩ => do
    let operand ← k.nodeText x
    return s!"{op.name}({operand})"
  | some ⟨.binary op l r, _⟩ => do
    let left ← k.nodeText l
    let right ← k.nodeText r
    return s!"{op.name}({left}, {right})"
  | some ⟨.reduce kind x, _⟩ => do
    let operand ← k.nodeText x
    return s!"reduce.{kind.name}({operand})"
  | some ⟨.activate name x, _⟩ => do
    let operand ← k.nodeText x
    return s!"{name}({operand})"
  | some ⟨.input _, _⟩ => .ok "input()"
termination_by id
decreasing_by all_goals rename_i h; exact h _ (by simp [Node.operands])

def tabs (n : Nat) : String := String.ofList (List.replicate n '\t')

/-- The type of an assignment's target, as the listing shows it. -/
def targetText (k : Kernel) (lhs : NodeId) : Typing String := do
  match ← attempt (k.infer lhs) with
  | .ok t => pure t.text
  | .error _ => pure "<invalid>"

mutual

def stmtText (k : Kernel) (depth : Nat) : Stmt → Typing String
  | .define v => do
    let var ← orDefect (k.var v)
    return s!"{tabs depth}define {var.name}\t{var.ty.text}\n"
  | .assign lhs rhs => do
    let type ← k.targetText lhs
    let left ← orDefect (k.nodeText lhs)
    let right ← orDefect (k.nodeText rhs)
    return s!"{tabs depth}{left} = {right}\t{type}\n"
  | .loop index start stop body => do
    let var ← orDefect (k.var index)
    let first ← orDefect (k.nodeText start)
    let last ← orDefect (k.nodeText stop)
    let inner ← k.bodyText (depth + 1) body
    return s!"{tabs depth}for {var.name} = {first} : {last} \x7b\n{inner}{tabs depth}\x7d\n"

def bodyText (k : Kernel) (depth : Nat) : List Stmt → Typing String
  | [] => pure ""
  | s :: rest => do
    let here ← k.stmtText depth s
    let below ← k.bodyText depth rest
    return here ++ below

end

def tablesText (k : Kernel) : String :=
  String.join (k.tables.toList.zipIdx.map fun (t, id) => t.text id ++ "\n")

def listing (k : Kernel) : Typing String := do
  let input ← orDefect (k.var inputVar)
  let output ← orDefect (k.var outputVar)
  let body ← k.bodyText 0 k.body
  return s!"function ({input.name} {input.ty.text}) -> ({output.name} {output.ty.text})\n" ++
    k.tablesText ++ body

end Synapse.Kernel
