namespace Synapse

/-- An acyclic graph, numbered so that operands come first. -/
structure Dag where
  operands : Nat → List Nat
  descending : ∀ i, ∀ x ∈ operands i, x < i

namespace Dag

/-- The nodes met if `i` is read as a tree: `i` itself, and then what its operands unfold to. -/
def unfolded (g : Dag) (i : Nat) : List Nat :=
  i :: (g.operands i).attach.flatMap fun x => g.unfolded x.1
termination_by i
decreasing_by exact g.descending i x.1 x.2

theorem unfolded_eq (g : Dag) (i : Nat) :
    g.unfolded i = i :: (g.operands i).flatMap g.unfolded := by
  rw [unfolded]
  simp

theorem length_unfolded_zip_le {α : Type} (g : Dag) (xs : List Nat) (ys : List α) :
    ((xs.zip ys).flatMap fun p => g.unfolded p.1).length ≤ (xs.flatMap g.unfolded).length := by
  induction xs generalizing ys with
  | nil => simp
  | cons x xs ih =>
    cases ys with
    | nil => simp
    | cons y ys =>
      have := ih ys
      simp only [List.zip_cons_cons, List.flatMap_cons, List.length_append]
      omega

/-- Walks the pending nodes from the front, putting the operands of a new node in front of the
others. A node counts as seen once it is taken from the front, so it may be pending several
times. -/
def walk (g : Dag) (todo seen : List Nat) : List Nat :=
  match todo with
  | [] => []
  | i :: rest =>
    if i ∈ seen then g.walk rest seen
    else i :: g.walk (g.operands i ++ rest) (i :: seen)
termination_by (todo.flatMap g.unfolded).length
decreasing_by
  all_goals
    simp only [List.flatMap_cons, List.flatMap_append, List.length_append, g.unfolded_eq i,
      List.length_cons]
    omega

/-- The nodes that `root` reaches, each at its first occurrence, before its operands. -/
def preorder (g : Dag) (root : Nat) : List Nat := g.walk [root] []

/-- The nodes seen so far, followed by those that `i` reaches besides, operands first. -/
def visit (g : Dag) (i : Nat) (seen : List Nat) : List Nat :=
  if i ∈ seen then seen
  else (g.operands i).attach.foldl (fun s x => g.visit x.1 s) seen ++ [i]
termination_by i
decreasing_by exact g.descending i x.1 x.2

/-- The nodes that `root` reaches, each after its operands; `root` is the last. -/
def postorder (g : Dag) (root : Nat) : List Nat := g.visit root []

end Dag

end Synapse
