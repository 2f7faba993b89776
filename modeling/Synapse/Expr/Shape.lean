import Synapse.Expr.Typing

namespace Synapse

/-- Pairs of nodes that correspond to each other. -/
abbrev Pairing := List (NodeId × NodeId)

namespace Pairing

def image? (p : Pairing) (a : NodeId) : Option NodeId := (p.find? (·.1 == a)).map (·.2)

def preimage? (p : Pairing) (b : NodeId) : Option NodeId := (p.find? (·.2 == b)).map (·.1)

end Pairing

/-- Whether two nodes other than inputs can correspond, their operands aside. -/
def Node.sameKind : Node → Node → Bool
  | literal c, literal d => c.sameKind d
  | unary f _, unary g _ => f == g
  | binary f _ _, binary g _ _ => f == g
  | reduce j _, reduce k _ => j == k
  | activate f _, activate g _ => f == g
  | _, _ => false

/-- Whether two nodes can correspond, their operands aside. Inputs must have one type. -/
def corresponds (nodes : Array Node) (env : Env) (a b : NodeId) : Typing Bool :=
  match nodes[a]?, nodes[b]? with
  | some (.input _), some (.input _) => do
    let t ← infer nodes env a
    let u ← infer nodes env b
    pure (t == u)
  | some m, some n => pure (m.sameKind n)
  | _, _ => throw (.defect (.outOfRange nodes.size (if a < nodes.size then b else a)))

/-- Extends a pairing until it covers all pending pairs and is closed under operands. Gives
nothing if some pair cannot correspond, or would break the one-to-one correspondence. -/
def pairUp (nodes : Array Node) (env : Env) (todo : List (NodeId × NodeId)) (p : Pairing) :
    Typing (Option Pairing) := do
  match todo with
  | [] => pure (some p)
  | (a, b) :: rest =>
    match p.image? a, p.preimage? b with
    | some x, some y => if x = b ∧ y = a then pairUp nodes env rest p else pure none
    | none, none =>
      if ← corresponds nodes env a b then
        let g := Arena.dag nodes
        pairUp nodes env ((g.operands a).zip (g.operands b) ++ rest) ((a, b) :: p)
      else pure none
    | _, _ => pure none
termination_by (todo.flatMap fun ab => (Arena.dag nodes).unfolded ab.1).length
decreasing_by
  all_goals simp only [List.flatMap_cons, List.flatMap_append, List.length_append,
    (Arena.dag nodes).unfolded_eq a, List.length_cons]
  · omega
  · exact Nat.add_lt_add_right (Nat.lt_succ_of_le (Dag.length_unfolded_zip_le _ _ _)) _

/-- Whether two expressions differ in the values of their literals only, so that one piece of code
computes both. The nodes must correspond one to one, or else one side would share what the other
computes twice. -/
def sameShape (nodes : Array Node) (env : Env) (a b : NodeId) : Typing Bool := do
  return (← pairUp nodes env [(a, b)] []).isSome

end Synapse
