import Mathlib.Tactic
import Synapse.Proofs.Orders

namespace Synapse

namespace Dag

variable {g : Dag} {todo seen rest : List Nat} {i : Nat}

theorem mem_unfolded {i x : Nat} : x ∈ g.unfolded i ↔ g.Reaches i x := by
  induction i using Nat.strong_induction_on with
  | _ i ih =>
    have hbelow : (∃ y ∈ g.operands i, x ∈ g.unfolded y) ↔ ∃ y ∈ g.operands i, g.Reaches y x := by
      constructor
      · rintro ⟨y, hy, hx⟩
        exact ⟨y, hy, (ih y (g.descending i y hy)).1 hx⟩
      · rintro ⟨y, hy, hx⟩
        exact ⟨y, hy, (ih y (g.descending i y hy)).2 hx⟩
    rw [unfolded_eq, List.mem_cons, List.mem_flatMap, hbelow, ← reaches_iff]

/-- What a seen node reaches has been seen, or it is below the top of the stack. The part of the
stack that matters holds only nodes below the seen one. -/
def Covered (g : Dag) (todo seen : List Nat) (i : Nat) : Prop :=
  ∃ top below, todo = top ++ below ∧ (∀ j ∈ top, j < i) ∧
    ∀ x, g.Reaches i x → x ∈ seen ∨ ∃ j ∈ top, g.Reaches j x

/-- A seen node on top of the stack has nothing left to see, since it is not below itself. -/
theorem Covered.mem_of_reaches (h : g.Covered (i :: rest) seen i) {x : Nat} (hx : g.Reaches i x) :
    x ∈ seen := by
  obtain ⟨top, below, hsplit, hlt, hcover⟩ := h
  have htop : top = [] := by
    cases top with
    | nil => rfl
    | cons j top =>
      have hj : j < i := hlt j List.mem_cons_self
      have heq : i = j := (List.cons.inj hsplit).1
      omega
  simpa [htop] using hcover x hx

theorem Covered.skip {j : Nat} (h : g.Covered (i :: rest) seen j)
    (hi : ∀ x, g.Reaches i x → x ∈ seen) : g.Covered rest seen j := by
  obtain ⟨top, below, hsplit, hlt, hcover⟩ := h
  cases top with
  | nil => exact ⟨[], rest, rfl, by simp, hcover⟩
  | cons k top =>
    obtain ⟨rfl, hrest⟩ := List.cons.inj hsplit
    refine ⟨top, below, hrest, fun y hy => hlt y (List.mem_cons_of_mem _ hy), fun x hx => ?_⟩
    rcases hcover x hx with hs | ⟨y, hy, hr⟩
    · exact .inl hs
    · rcases List.mem_cons.1 hy with rfl | hy
      · exact .inl (hi x hr)
      · exact .inr ⟨y, hy, hr⟩

theorem Covered.visit {j : Nat} (h : g.Covered (i :: rest) seen j) :
    g.Covered (g.operands i ++ rest) (i :: seen) j := by
  obtain ⟨top, below, hsplit, hlt, hcover⟩ := h
  cases top with
  | nil =>
    refine ⟨[], _, rfl, by simp, fun x hx => ?_⟩
    have hseen : x ∈ seen := by simpa using hcover x hx
    exact .inl (List.mem_cons_of_mem _ hseen)
  | cons k top =>
    obtain ⟨rfl, hrest⟩ := List.cons.inj hsplit
    have hi : i < j := hlt i List.mem_cons_self
    refine ⟨g.operands i ++ top, below, by simp [hrest], fun y hy => ?_, fun x hx => ?_⟩
    · rcases List.mem_append.1 hy with hy | hy
      · exact (g.descending i y hy).trans hi
      · exact hlt y (List.mem_cons_of_mem _ hy)
    · rcases hcover x hx with hs | ⟨y, hy, hr⟩
      · exact .inl (List.mem_cons_of_mem _ hs)
      · rcases List.mem_cons.1 hy with rfl | hy
        · rcases reaches_iff.1 hr with rfl | ⟨z, hz, hr⟩
          · exact .inl List.mem_cons_self
          · exact .inr ⟨z, List.mem_append_left _ hz, hr⟩
        · exact .inr ⟨y, List.mem_append_right _ hy, hr⟩

theorem covered_self (g : Dag) (i : Nat) (rest seen : List Nat) :
    g.Covered (g.operands i ++ rest) (i :: seen) i := by
  refine ⟨g.operands i, rest, rfl, g.descending i, fun x hx => ?_⟩
  rcases reaches_iff.1 hx with rfl | hbelow
  · exact .inl List.mem_cons_self
  · exact .inr hbelow

/-- A walk lists what the pending nodes unfold to, without what was seen before, each node at its
first occurrence. -/
theorem walk_eq (h : ∀ j ∈ seen, g.Covered todo seen j) :
    g.walk todo seen = ((todo.flatMap g.unfolded).removeAll seen).eraseDups := by
  fun_induction g.walk todo seen with
  | case1 seen => simp
  | case2 seen i rest hi ih =>
    have hbelow : ∀ x, g.Reaches i x → x ∈ seen := fun x hx => (h i hi).mem_of_reaches hx
    have hnone : (g.unfolded i).removeAll seen = [] := by
      simpa [List.removeAll, mem_unfolded] using hbelow
    have hsplit : ((i :: rest).flatMap g.unfolded).removeAll seen =
        (g.unfolded i).removeAll seen ++ (rest.flatMap g.unfolded).removeAll seen := by
      rw [List.flatMap_cons]
      exact List.filter_append ..
    rw [ih fun j hj => (h j hj).skip hbelow, hsplit, hnone, List.nil_append]
  | case3 seen i rest hi ih =>
    have hnext : ∀ j ∈ i :: seen, g.Covered (g.operands i ++ rest) (i :: seen) j := by
      intro j hj
      rcases List.mem_cons.1 hj with rfl | hj
      · exact g.covered_self j rest seen
      · exact (h j hj).visit
    have hunfold : (i :: rest).flatMap g.unfolded =
        i :: (g.operands i ++ rest).flatMap g.unfolded := by
      rw [List.flatMap_cons, unfolded_eq, List.cons_append, ← List.flatMap_append]
    have hnew : ∀ l : List Nat, ((i :: l).removeAll seen).eraseDups =
        i :: (l.removeAll (i :: seen)).eraseDups := by
      intro l
      have hkept : (i :: l).removeAll seen = i :: l.removeAll seen := by simp [List.removeAll, hi]
      have hlater : (l.removeAll seen).filter (fun x => !x == i) = l.removeAll (i :: seen) := by
        simp only [List.removeAll, List.filter_filter]
        apply List.filter_congr
        intro x _
        by_cases hx : x = i <;> simp [hx]
      rw [hkept, List.eraseDups_cons, hlater]
    rw [ih hnext, hunfold, hnew]

theorem preorder_eq (g : Dag) (root : Nat) :
    g.preorder root = (g.unfolded root).eraseDups := by
  have hcovered : ∀ j ∈ ([] : List Nat), g.Covered [root] [] j := by simp
  have hwalk := walk_eq hcovered
  simpa [preorder] using hwalk

end Dag

/-- An expression without sharing. A shared node occurs in it as often as it is named. -/
inductive Tree where
  | leaf (id : NodeId)
  | one (id : NodeId) (x : Tree)
  | two (id : NodeId) (l r : Tree)

/-- The nodes of a tree: the root, and then those of its branches, left before right. -/
def Tree.preorder : Tree → List NodeId
  | leaf id => [id]
  | one id x => id :: x.preorder
  | two id l r => id :: (l.preorder ++ r.preorder)

namespace Arena

variable {nodes : Array Node} {id : NodeId}

/-- A node and the tree it stands for. -/
inductive Unfolds (nodes : Array Node) : NodeId → Tree → Prop
  | literal {id : NodeId} {c : Literal} (hn : nodes[id]? = some (.literal c)) :
      Unfolds nodes id (.leaf id)
  | input {id : NodeId} {n : NeuronId} (hn : nodes[id]? = some (.input n)) :
      Unfolds nodes id (.leaf id)
  | var {id : NodeId} {v : VarId} (hn : nodes[id]? = some (.var v)) : Unfolds nodes id (.leaf id)
  | unary {id x : NodeId} {op : Unary} {t : Tree} (hn : nodes[id]? = some (.unary op x))
      (hx : Unfolds nodes x t) : Unfolds nodes id (.one id t)
  | reduce {id x : NodeId} {kind : Reduction} {t : Tree} (hn : nodes[id]? = some (.reduce kind x))
      (hx : Unfolds nodes x t) : Unfolds nodes id (.one id t)
  | activate {id x : NodeId} {name : String} {t : Tree}
      (hn : nodes[id]? = some (.activate name x)) (hx : Unfolds nodes x t) :
      Unfolds nodes id (.one id t)
  | element {id x : NodeId} {v : VarId} {t : Tree} (hn : nodes[id]? = some (.element v x))
      (hx : Unfolds nodes x t) : Unfolds nodes id (.one id t)
  | entry {id x : NodeId} {table : TableId} {t : Tree} (hn : nodes[id]? = some (.entry table x))
      (hx : Unfolds nodes x t) : Unfolds nodes id (.one id t)
  | binary {id l r : NodeId} {op : Binary} {t u : Tree} (hn : nodes[id]? = some (.binary op l r))
      (hl : Unfolds nodes l t) (hr : Unfolds nodes r u) : Unfolds nodes id (.two id t u)

theorem exists_unfolds (ho : Ordered nodes) (hid : id < nodes.size) :
    ∃ t, Unfolds nodes id t := by
  induction id using Nat.strong_induction_on with
  | _ id ih =>
    have hn := Array.getElem?_eq_getElem hid
    generalize nodes[id] = n at hn
    have hbelow : ∀ x ∈ n.operands, ∃ t, Unfolds nodes x t := by
      intro x hx
      have hlt : x < id := ho id n hn x hx
      exact ih x hlt (hlt.trans hid)
    cases n with
    | literal c => exact ⟨_, .literal hn⟩
    | input n => exact ⟨_, .input hn⟩
    | var v => exact ⟨_, .var hn⟩
    | unary op x =>
      obtain ⟨t, ht⟩ := hbelow x (by simp [Node.operands])
      exact ⟨_, .unary hn ht⟩
    | reduce kind x =>
      obtain ⟨t, ht⟩ := hbelow x (by simp [Node.operands])
      exact ⟨_, .reduce hn ht⟩
    | activate name x =>
      obtain ⟨t, ht⟩ := hbelow x (by simp [Node.operands])
      exact ⟨_, .activate hn ht⟩
    | element v x =>
      obtain ⟨t, ht⟩ := hbelow x (by simp [Node.operands])
      exact ⟨_, .element hn ht⟩
    | entry table x =>
      obtain ⟨t, ht⟩ := hbelow x (by simp [Node.operands])
      exact ⟨_, .entry hn ht⟩
    | binary op l r =>
      obtain ⟨t, ht⟩ := hbelow l (by simp [Node.operands])
      obtain ⟨u, hu⟩ := hbelow r (by simp [Node.operands])
      exact ⟨_, .binary hn ht hu⟩

theorem Unfolds.preorder_eq (ho : Ordered nodes) {t : Tree} (h : Unfolds nodes id t) :
    t.preorder = (dag nodes).unfolded id := by
  have hone : ∀ {id : NodeId} {n : Node}, nodes[id]? = some n →
      (dag nodes).unfolded id = id :: n.operands.flatMap (dag nodes).unfolded := by
    intro id n hn
    have hops : (dag nodes).operands id = n.operands := operandsOf_eq ho hn
    rw [Dag.unfolded_eq, hops]
  induction h with
  | binary hn _ _ ihl ihr => simp [hone hn, Tree.preorder, Node.operands, ihl, ihr]
  | _ hn => simp [hone hn, Tree.preorder, Node.operands, *]

/-- The loop over a stack of pending nodes, as a finite run with its output. A node that is taken
from the stack must be there; if it is new, its operands go on top. -/
inductive Walks (nodes : Array Node) : List NodeId → List NodeId → List NodeId → Prop
  | done (seen : List NodeId) : Walks nodes [] seen []
  | skip {id : NodeId} {todo seen out : List NodeId} (hseen : id ∈ seen)
      (hrest : Walks nodes todo seen out) : Walks nodes (id :: todo) seen out
  | visit {id : NodeId} {n : Node} {todo seen out : List NodeId} (hnew : id ∉ seen)
      (hn : nodes[id]? = some n) (hrest : Walks nodes (n.operands ++ todo) (id :: seen) out) :
      Walks nodes (id :: todo) seen (id :: out)

/-- The loop comes to its end, and never looks for a node that is not there. -/
theorem walks_walk (ho : Ordered nodes) {todo seen : List NodeId}
    (htodo : ∀ id ∈ todo, id < nodes.size) :
    Walks nodes todo seen ((dag nodes).walk todo seen) := by
  fun_induction (dag nodes).walk todo seen with
  | case1 seen => exact .done seen
  | case2 seen id rest hid ih =>
    exact .skip hid (ih fun x hx => htodo x (List.mem_cons_of_mem _ hx))
  | case3 seen id rest hid ih =>
    have hlt : id < nodes.size := htodo id List.mem_cons_self
    have hn := Array.getElem?_eq_getElem hlt
    have hops : (dag nodes).operands id = nodes[id].operands := operandsOf_eq ho hn
    have hnext : ∀ x ∈ (dag nodes).operands id ++ rest, x < nodes.size := by
      intro x hx
      rcases List.mem_append.1 hx with hx | hx
      · exact ((dag nodes).descending id x hx).trans hlt
      · exact htodo x (List.mem_cons_of_mem _ hx)
    have hwalk := ih hnext
    rw [hops] at hwalk
    rw [hops]
    exact .visit hid hn hwalk

theorem Walks.unique {todo seen out out' : List NodeId} (h : Walks nodes todo seen out)
    (h' : Walks nodes todo seen out') : out = out' := by
  induction h generalizing out' with
  | done seen =>
    cases h'
    rfl
  | skip hseen _ ih =>
    cases h' with
    | skip _ hrest => exact ih hrest
    | visit hnew => exact absurd hseen hnew
  | visit hnew hn _ ih =>
    cases h' with
    | skip hseen => exact absurd hseen hnew
    | visit _ hn' hrest =>
      have hnode := Option.some.inj (hn.symm.trans hn')
      subst hnode
      rw [ih hrest]

end Arena

/-- The loop that lists an expression comes to its end, and lists the nodes of the unfolded tree in
pre-order, each at its first occurrence: every node that the root reaches, once. -/
theorem preorder_lists_first_visits {nodes : Array Node} (ho : Arena.Ordered nodes) {root : NodeId}
    (hroot : root < nodes.size) :
    (∀ out, Arena.Walks nodes [root] [] out ↔ out = (Arena.dag nodes).preorder root) ∧
      (∃ t, Arena.Unfolds nodes root t) ∧
      (∀ t, Arena.Unfolds nodes root t →
        (Arena.dag nodes).preorder root = t.preorder.eraseDups) ∧
      ((Arena.dag nodes).preorder root).Nodup ∧
      ∀ id, id ∈ (Arena.dag nodes).preorder root ↔ (Arena.dag nodes).Reaches root id := by
  have hwalks : Arena.Walks nodes [root] [] ((Arena.dag nodes).preorder root) :=
    Arena.walks_walk ho (by simpa using hroot)
  refine ⟨fun out => ⟨fun h => h.unique hwalks, fun h => h ▸ hwalks⟩, Arena.exists_unfolds ho hroot,
    fun t ht => ?_, Dag.nodup_preorder _ root, fun id => Dag.mem_preorder⟩
  rw [Dag.preorder_eq, ht.preorder_eq ho]

/-- A product whose second factor is part of the first, and is pending when it is listed. -/
def nestedFactor : Array Node :=
  #[.literal (.int 2), .input 0, .unary .minus 1, .binary .add 2 0, .binary .mul 3 2]

theorem nestedFactor_first_visits :
    Arena.Ordered nestedFactor ∧ 4 < nestedFactor.size ∧
      (Arena.dag nestedFactor).preorder 4 = [4, 3, 2, 1, 0] ∧
      (∀ out, Arena.Walks nestedFactor [4] [] out ↔
        out = (Arena.dag nestedFactor).preorder 4) ∧
      (∃ t, Arena.Unfolds nestedFactor 4 t) ∧
      (∀ t, Arena.Unfolds nestedFactor 4 t →
        (Arena.dag nestedFactor).preorder 4 = t.preorder.eraseDups) ∧
      ((Arena.dag nestedFactor).preorder 4).Nodup ∧
      ∀ id, id ∈ (Arena.dag nestedFactor).preorder 4 ↔ (Arena.dag nestedFactor).Reaches 4 id := by
  have ho : Arena.Ordered nestedFactor := by decide +kernel
  have hroot : 4 < nestedFactor.size := by decide
  exact ⟨ho, hroot, by decide +kernel, preorder_lists_first_visits ho hroot⟩

end Synapse
