import Synapse.Expr.Arena
import Synapse.Failure

namespace Synapse

/-- The types of the leaves that depend on their surroundings. -/
structure Env where
  input : NeuronId → Except Defect Ty
  var : VarId → Except Defect Ty
  table : TableId → Except Defect Ty

namespace Env

/-- The surroundings in which no such leaf means anything. -/
def closed : Env where
  input n := .error (.inputOutsideNetwork n)
  var v := .error (.variableOutsideKernel v)
  table t := .error (.tableOutsideKernel t)

def setInput (env : Env) (n : NeuronId) (t : Ty) : Env :=
  { env with input := fun m => if m = n then .ok t else env.input m }

def setVar (env : Env) (v : VarId) (t : Ty) : Env :=
  { env with var := fun w => if w = v then .ok t else env.var w }

def setTable (env : Env) (s : TableId) (t : Ty) : Env :=
  { env with table := fun r => if r = s then .ok t else env.table r }

end Env

namespace Rule

def join (t u : Ty) : Except TypeError Ty :=
  match t.join u with
  | some v => .ok v
  | none => .error (.incompatibleOperands t u)

def reduce : Ty → Except TypeError Ty
  | .vector _ (some 0) => .error .emptyReduction
  | .vector s _ => .ok (.scalar s)
  | .scalar s => .error (.reductionOfScalar (.scalar s))

def activate (name : String) : Ty → Except TypeError Ty
  | .scalar s => .ok (.scalar s)
  | t => .error (.activationOfVector name t)

def element : Ty → Except TypeError Ty
  | .vector s _ => .ok (.scalar s)
  | t => .error (.indexedScalar t)

def index : Ty → Except TypeError Unit
  | .scalar _ => .ok ()
  | t => .error (.vectorIndex t)

end Rule

/-- Computations that find types. What they have found stays when they stop. -/
abbrev Typing := EStateM Failure Types

namespace Typing

/-- Runs a search for types in a state that holds the types found so far, and keeps what it
finds. -/
def on {σ α : Type} (types : σ → Types) (keep : σ → Types → σ) (x : σ → Typing α) :
    EStateM Failure σ α := fun s =>
  match x s (types s) with
  | .ok v ts => .ok v (keep s ts)
  | .error e ts => .error e (keep s ts)

/-- The type of a node: the one remembered, or else the one that is found and then remembered. -/
def remember (id : NodeId) (find : Typing Ty) : Typing Ty := do
  match (← get)[id]? with
  | some t => pure t
  | none =>
    let t ← find
    modify (·.insert id t)
    pure t

end Typing

/-- The type of a node, remembered from now on. So are the types of its operands, also where the
node itself turns out to be ill typed. -/
def infer (nodes : Array Node) (env : Env) (id : NodeId) : Typing Ty :=
  Typing.remember id <| match Arena.find? nodes id with
    | none => throw (.defect (.outOfRange nodes.size id))
    | some ⟨.literal c, _⟩ => pure c.ty
    | some ⟨.unary _ x, _⟩ => infer nodes env x
    | some ⟨.binary _ l r, _⟩ => do
      let t ← infer nodes env l
      let u ← infer nodes env r
      orTypeError (Rule.join t u)
    | some ⟨.input n, _⟩ => orDefect (env.input n)
    | some ⟨.reduce _ x, _⟩ => do
      let t ← infer nodes env x
      orTypeError (Rule.reduce t)
    | some ⟨.activate name x, _⟩ => do
      let t ← infer nodes env x
      orTypeError (Rule.activate name t)
    | some ⟨.var v, _⟩ => orDefect (env.var v)
    | some ⟨.element v x, _⟩ => do
      let t ← orDefect (env.var v)
      let s ← orTypeError (Rule.element t)
      let u ← infer nodes env x
      orTypeError (Rule.index u)
      pure s
    | some ⟨.entry s x, _⟩ => do
      let u ← infer nodes env x
      orTypeError (Rule.index u)
      orDefect (env.table s)
termination_by id
decreasing_by all_goals rename_i h; exact h _ (by simp [Node.operands])

namespace Arena

/-- Runs a search for types on the nodes of an arena and keeps what it finds. -/
def typing {α : Type} (x : Array Node → Typing α) : EStateM Failure Arena α :=
  Typing.on Arena.types (fun a types => { a with types }) fun a => x a.nodes

end Arena

end Synapse
