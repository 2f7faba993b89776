import Mathlib.Data.Set.Function
import Mathlib.Tactic
import Synapse.Expr.Arena

namespace Synapse.Dag

/-- Whether `x` is `i` itself or an operand of an operand, to any depth. -/
def Reaches (g : Dag) : Nat → Nat → Prop := Relation.ReflTransGen fun i x => x ∈ g.operands i

theorem Reaches.refl (g : Dag) (i : Nat) : g.Reaches i i := Relation.ReflTransGen.refl

theorem Reaches.trans {g : Dag} {i j x : Nat} (h : g.Reaches i j) (h' : g.Reaches j x) :
    g.Reaches i x := Relation.ReflTransGen.trans h h'

theorem Reaches.operand {g : Dag} {i x : Nat} (h : x ∈ g.operands i) : g.Reaches i x :=
  Relation.ReflTransGen.single h

theorem reaches_iff {g : Dag} {i x : Nat} :
    g.Reaches i x ↔ x = i ∨ ∃ y ∈ g.operands i, g.Reaches y x := by
  constructor
  · intro h
    rcases Relation.ReflTransGen.cases_head h with rfl | ⟨y, hy, h⟩
    · exact .inl rfl
    · exact .inr ⟨y, hy, h⟩
  · rintro (rfl | ⟨y, hy, h⟩)
    · exact .refl g x
    · exact (Reaches.operand hy).trans h

theorem Reaches.le {g : Dag} {i x : Nat} (h : g.Reaches i x) : x ≤ i := by
  induction h with
  | refl => exact le_refl i
  | tail _ hx ih => exact (g.descending _ _ hx).le.trans ih

/-- Each node of the list stands after its operands. -/
def OperandsFirst (g : Dag) (l : List Nat) : Prop :=
  ∀ before i after, l = before ++ i :: after → ∀ x ∈ g.operands i, x ∈ before

theorem operandsFirst_nil (g : Dag) : g.OperandsFirst [] := by
  intro before i after h
  simp at h

theorem OperandsFirst.concat {g : Dag} {l : List Nat} {i : Nat} (h : g.OperandsFirst l)
    (hi : ∀ x ∈ g.operands i, x ∈ l) : g.OperandsFirst (l ++ [i]) := by
  intro before j after hl
  rcases after.eq_nil_or_concat with rfl | ⟨between, k, rfl⟩
  · obtain ⟨rfl, hij⟩ := List.append_inj' hl rfl
    obtain rfl : i = j := by simpa using hij
    exact hi
  · rw [List.concat_eq_append, ← List.cons_append, ← List.append_assoc] at hl
    exact h before j between (List.append_inj' hl rfl).1

theorem OperandsFirst.mem_of_reaches {g : Dag} {l : List Nat} {i x : Nat} (h : g.OperandsFirst l)
    (hi : i ∈ l) (hx : g.Reaches i x) : x ∈ l := by
  induction hx with
  | refl => exact hi
  | tail _ hx ih =>
    obtain ⟨before, after, hl⟩ := List.append_of_mem ih
    rw [hl]
    exact List.mem_append_left _ (h before _ after hl _ hx)

theorem OperandsFirst.idxOf_lt {g : Dag} {l : List Nat} {i x : Nat} (h : g.OperandsFirst l)
    (hi : i ∈ l) (hx : x ∈ g.operands i) : l.idxOf x < l.idxOf i := by
  obtain ⟨before, after, hl, hnew⟩ := List.eq_append_cons_of_mem hi
  have hmem : x ∈ before := h before i after hl x hx
  rw [hl, List.idxOf_append_of_mem hmem, List.idxOf_append_of_notMem hnew, List.idxOf_cons_self]
  exact List.idxOf_lt_length_of_mem hmem

theorem visit_of_mem {g : Dag} {i : Nat} {seen : List Nat} (h : i ∈ seen) :
    g.visit i seen = seen := by
  rw [visit, if_pos h]

theorem visit_of_notMem {g : Dag} {i : Nat} {seen : List Nat} (h : i ∉ seen) :
    g.visit i seen = (g.operands i).foldl (fun s x => g.visit x s) seen ++ [i] := by
  rw [visit, if_neg h]
  exact congrArg (· ++ [i]) (List.foldl_attach (f := fun s x => g.visit x s))

/-- What a visit to some nodes makes of the nodes seen before. -/
structure Visited (g : Dag) (xs seen out : List Nat) : Prop where
  operandsFirst : g.OperandsFirst out
  mem : ∀ x, x ∈ out ↔ x ∈ seen ∨ ∃ i ∈ xs, g.Reaches i x
  nodup : seen.Nodup → out.Nodup

theorem visited_foldl {g : Dag} {xs : List Nat}
    (h : ∀ x ∈ xs, ∀ seen, g.OperandsFirst seen → g.Visited [x] seen (g.visit x seen))
    {seen : List Nat} (hs : g.OperandsFirst seen) :
    g.Visited xs seen (xs.foldl (fun s x => g.visit x s) seen) := by
  induction xs generalizing seen with
  | nil => exact ⟨hs, by simp, id⟩
  | cons x xs ih =>
    have hx := h x (by simp) seen hs
    have hxs := ih (fun y hy => h y (by simp [hy])) hx.operandsFirst
    refine ⟨hxs.operandsFirst, ?_, hxs.nodup ∘ hx.nodup⟩
    intro y
    rw [List.foldl_cons, hxs.mem, hx.mem]
    simp [or_assoc]

theorem visited_visit (g : Dag) (i : Nat) (seen : List Nat) (hs : g.OperandsFirst seen) :
    g.Visited [i] seen (g.visit i seen) := by
  induction i using Nat.strong_induction_on generalizing seen with
  | _ i ih =>
  by_cases hi : i ∈ seen
  · rw [visit_of_mem hi]
    refine ⟨hs, ?_, id⟩
    intro x
    simp only [List.mem_singleton, exists_eq_left]
    exact ⟨.inl, Or.rec id (hs.mem_of_reaches hi)⟩
  · rw [visit_of_notMem hi]
    have hv := visited_foldl (fun x hx => ih x (g.descending i x hx)) hs
    set out := (g.operands i).foldl (fun s x => g.visit x s) seen
    refine ⟨?_, ?_, ?_⟩
    · exact hv.operandsFirst.concat fun x hx => (hv.mem x).2 (.inr ⟨x, hx, .refl g x⟩)
    · intro x
      simp only [List.mem_append, List.mem_singleton, hv.mem, exists_eq_left]
      rw [or_assoc, or_comm (b := x = i), ← reaches_iff]
    · intro hn
      -- What lies below the operands is smaller than `i`.
      have hnew : i ∉ out := by
        rw [hv.mem]
        rintro (h | ⟨x, hx, h⟩)
        · exact hi h
        · exact absurd h.le (g.descending i x hx).not_ge
      simpa using (hv.nodup hn).concat hnew

theorem visited_postorder (g : Dag) (root : Nat) : g.Visited [root] [] (g.postorder root) :=
  g.visited_visit root [] (operandsFirst_nil g)

theorem mem_postorder {g : Dag} {root x : Nat} : x ∈ g.postorder root ↔ g.Reaches root x := by
  simpa using (g.visited_postorder root).mem x

theorem nodup_postorder (g : Dag) (root : Nat) : (g.postorder root).Nodup :=
  (g.visited_postorder root).nodup List.nodup_nil

theorem postorder_eq_concat (g : Dag) (root : Nat) :
    ∃ below, g.postorder root = below ++ [root] :=
  ⟨_, visit_of_notMem (by simp)⟩

/-- What a listed node reaches is listed, or lies below a pending node. -/
theorem reaches_of_pending {g : Dag} {todo seen : List Nat}
    (h : ∀ i ∈ seen, ∀ y ∈ g.operands i, y ∈ seen ∨ y ∈ todo) {i x : Nat} (hi : i ∈ seen)
    (hx : g.Reaches i x) : x ∈ seen ∨ ∃ j ∈ todo, g.Reaches j x := by
  induction hx with
  | refl => exact .inl hi
  | tail _ hx ih =>
    rcases ih with hs | ⟨j, hj, hr⟩
    · rcases h _ hs _ hx with hy | hy
      · exact .inl hy
      · exact .inr ⟨_, hy, .refl g _⟩
    · exact .inr ⟨j, hj, hr.trans (.operand hx)⟩

theorem mem_walk {g : Dag} {todo seen : List Nat}
    (h : ∀ i ∈ seen, ∀ y ∈ g.operands i, y ∈ seen ∨ y ∈ todo) (x : Nat) :
    x ∈ seen ∨ x ∈ g.walk todo seen ↔ x ∈ seen ∨ ∃ i ∈ todo, g.Reaches i x := by
  fun_induction g.walk todo seen with
  | case1 seen => simp
  | case2 seen i rest hi ih =>
    have hrest : ∀ j ∈ seen, ∀ y ∈ g.operands j, y ∈ seen ∨ y ∈ rest := by
      intro j hj y hy
      rcases h j hj y hy with hs | hs
      · exact .inl hs
      · rcases List.mem_cons.1 hs with rfl | hs
        · exact .inl hi
        · exact .inr hs
    rw [ih hrest]
    constructor
    · rintro (hs | ⟨j, hj, hr⟩)
      · exact .inl hs
      · exact .inr ⟨j, List.mem_cons_of_mem _ hj, hr⟩
    · rintro (hs | ⟨j, hj, hr⟩)
      · exact .inl hs
      · rcases List.mem_cons.1 hj with rfl | hj
        · exact reaches_of_pending hrest hi hr
        · exact .inr ⟨j, hj, hr⟩
  | case3 seen i rest hi ih =>
    have hnext : ∀ j ∈ i :: seen, ∀ y ∈ g.operands j, y ∈ i :: seen ∨ y ∈ g.operands i ++ rest := by
      intro j hj y hy
      rcases List.mem_cons.1 hj with rfl | hj
      · exact .inr (List.mem_append_left _ hy)
      · rcases h j hj y hy with hs | hs
        · exact .inl (List.mem_cons_of_mem _ hs)
        · rcases List.mem_cons.1 hs with rfl | hs
          · exact .inl (by simp)
          · exact .inr (List.mem_append_right _ hs)
    have hw := ih hnext
    simp only [List.mem_cons, List.mem_append, or_and_right, exists_or, exists_eq_left] at hw ⊢
    rw [or_left_comm, ← or_assoc, hw, reaches_iff (i := i)]
    rw [or_comm (a := x = i), or_assoc, or_assoc]

theorem mem_preorder {g : Dag} {root x : Nat} : x ∈ g.preorder root ↔ g.Reaches root x := by
  have h : x ∈ [] ∨ x ∈ g.walk [root] [] ↔ x ∈ [] ∨ ∃ i ∈ [root], g.Reaches i x :=
    mem_walk (List.forall_mem_nil _) x
  simpa [preorder] using h

/-- A walk lists each node once, and none that was seen before. -/
theorem nodup_walk (g : Dag) (todo seen : List Nat) :
    (g.walk todo seen).Nodup ∧ ∀ x ∈ g.walk todo seen, x ∉ seen := by
  fun_induction g.walk todo seen with
  | case1 seen => simp
  | case2 seen i rest hi ih => exact ih
  | case3 seen i rest hi ih =>
    obtain ⟨hnodup, hfresh⟩ := ih
    have hnew : i ∉ g.walk (g.operands i ++ rest) (i :: seen) := fun h => hfresh i h (by simp)
    refine ⟨List.nodup_cons.2 ⟨hnew, hnodup⟩, ?_⟩
    intro x hx
    rcases List.mem_cons.1 hx with rfl | hx
    · exact hi
    · exact fun hs => hfresh x hx (List.mem_cons_of_mem _ hs)

theorem nodup_preorder (g : Dag) (root : Nat) : (g.preorder root).Nodup :=
  (g.nodup_walk [root] []).1

/-- A renaming of the nodes in `D`, which is closed under operands, to nodes of another graph. -/
structure Renames (g h : Dag) (D : Nat → Prop) (f : Nat → Nat) : Prop where
  closed : ∀ i, D i → ∀ x ∈ g.operands i, D x
  operands : ∀ i, D i → h.operands (f i) = (g.operands i).map f
  injective : ∀ i j, D i → D j → f i = f j → i = j

namespace Renames

variable {g h : Dag} {D : Nat → Prop} {f : Nat → Nat} {a : Nat}

theorem mem_map_iff (r : Renames g h D f) {i : Nat} {l : List Nat} (hi : D i)
    (hl : ∀ x ∈ l, D x) : f i ∈ l.map f ↔ i ∈ l := by
  constructor
  · intro hm
    obtain ⟨x, hx, he⟩ := List.mem_map.1 hm
    rwa [← r.injective x i (hl x hx) hi he]
  · exact List.mem_map_of_mem

theorem idxOf_map (r : Renames g h D f) {i : Nat} {l : List Nat} (hi : D i)
    (hl : ∀ x ∈ l, D x) : (l.map f).idxOf (f i) = l.idxOf i := by
  induction l with
  | nil => rfl
  | cons x l ih =>
    have hx : D x := hl x (by simp)
    by_cases he : x = i
    · simp [he]
    · have hf : f x ≠ f i := fun h => he (r.injective x i hx hi h)
      simp [List.idxOf_cons_ne _ he, List.idxOf_cons_ne _ hf, ih fun y hy => hl y (by simp [hy])]

theorem reaches (r : Renames g h D f) {i x : Nat} (hi : D i) (hx : g.Reaches i x) : D x := by
  induction hx with
  | refl => exact hi
  | tail _ hx ih => exact r.closed _ ih _ hx

theorem reaches_image_iff (r : Renames g h D f) {i y : Nat} (hi : D i) :
    h.Reaches (f i) y ↔ ∃ x, g.Reaches i x ∧ f x = y := by
  constructor
  · intro hy
    induction hy with
    | refl => exact ⟨i, .refl g i, rfl⟩
    | tail _ hz ih =>
      obtain ⟨x, hx, rfl⟩ := ih
      rw [r.operands x (r.reaches hi hx)] at hz
      obtain ⟨w, hw, rfl⟩ := List.mem_map.1 hz
      exact ⟨w, hx.trans (.operand hw), rfl⟩
  · rintro ⟨x, hx, rfl⟩
    induction hx with
    | refl => exact .refl h (f i)
    | tail hx hz ih =>
      refine ih.trans (.operand ?_)
      rw [r.operands _ (r.reaches hi hx)]
      exact List.mem_map_of_mem hz

theorem visit_foldl {xs seen : List Nat} (hs : ∀ x ∈ seen, D x)
    (hv : ∀ x ∈ xs, ∀ seen : List Nat, (∀ y ∈ seen, D y) →
      h.visit (f x) (seen.map f) = (g.visit x seen).map f ∧ ∀ y ∈ g.visit x seen, D y) :
    (xs.map f).foldl (fun s x => h.visit x s) (seen.map f) =
        (xs.foldl (fun s x => g.visit x s) seen).map f ∧
      ∀ x ∈ xs.foldl (fun s x => g.visit x s) seen, D x := by
  induction xs generalizing seen with
  | nil => exact ⟨rfl, hs⟩
  | cons x xs ih =>
    obtain ⟨he, hd⟩ := hv x (by simp) seen hs
    simp only [List.map_cons, List.foldl_cons, he]
    exact ih hd fun y hy => hv y (by simp [hy])

theorem visit (r : Renames g h D f) {i : Nat} (hi : D i) {seen : List Nat}
    (hs : ∀ x ∈ seen, D x) :
    h.visit (f i) (seen.map f) = (g.visit i seen).map f ∧ ∀ x ∈ g.visit i seen, D x := by
  induction i using Nat.strong_induction_on generalizing seen with
  | _ i ih =>
  by_cases hm : i ∈ seen
  · rw [visit_of_mem hm, visit_of_mem (List.mem_map_of_mem hm)]
    exact ⟨rfl, hs⟩
  · have hn : f i ∉ seen.map f := fun h => hm ((r.mem_map_iff hi hs).1 h)
    obtain ⟨he, hd⟩ := visit_foldl hs fun x hx _ hs =>
      ih x (g.descending i x hx) (r.closed i hi x hx) hs
    rw [visit_of_notMem hm, visit_of_notMem hn, r.operands i hi, he]
    refine ⟨by simp, ?_⟩
    simp only [List.mem_append, List.mem_singleton]
    rintro x (hx | rfl)
    · exact hd x hx
    · exact hi

theorem postorder (r : Renames g h D f) {root : Nat} (hr : D root) :
    h.postorder (f root) = (g.postorder root).map f :=
  (r.visit hr (List.forall_mem_nil _)).1

theorem walk (r : Renames g h D f) {todo seen : List Nat} (ht : ∀ x ∈ todo, D x)
    (hs : ∀ x ∈ seen, D x) : h.walk (todo.map f) (seen.map f) = (g.walk todo seen).map f := by
  fun_induction g.walk todo seen with
  | case1 seen => simp [Dag.walk]
  | case2 seen i rest hi ih =>
    rw [List.map_cons, Dag.walk, if_pos (List.mem_map_of_mem hi)]
    exact ih (fun x hx => ht x (by simp [hx])) hs
  | case3 seen i rest hi ih =>
    have hd : D i := ht i (by simp)
    have hn : f i ∉ seen.map f := fun h => hi ((r.mem_map_iff hd hs).1 h)
    have hw := ih
      (by
        intro x hx
        rcases List.mem_append.1 hx with hx | hx
        · exact r.closed i hd x hx
        · exact ht x (by simp [hx]))
      (by
        intro x hx
        rcases List.mem_cons.1 hx with rfl | hx
        · exact hd
        · exact hs x hx)
    rw [List.map_cons, Dag.walk, if_neg hn, r.operands i hd, ← List.map_append,
      ← List.map_cons (f := f) (l := seen), hw, List.map_cons]

theorem preorder (r : Renames g h D f) {root : Nat} (hr : D root) :
    h.preorder (f root) = (g.preorder root).map f :=
  r.walk (List.forall_mem_singleton.2 hr) (List.forall_mem_nil _)

theorem reaches_image (r : Renames g h (g.Reaches a) f) {x : Nat} (hx : g.Reaches a x) :
    h.Reaches (f a) (f x) :=
  (r.reaches_image_iff (.refl g a)).2 ⟨x, hx, rfl⟩

/-- A renaming of what a node reaches can be undone. -/
theorem symm (r : Renames g h (g.Reaches a) f) :
    ∃ k, (∀ x, g.Reaches a x → k (f x) = x) ∧ Renames h g (h.Reaches (f a)) k := by
  let k := Function.invFunOn f {x | g.Reaches a x}
  have hinv : ∀ x, g.Reaches a x → k (f x) = x := fun x hx =>
    Set.InjOn.leftInvOn_invFunOn (fun y hy z hz he => r.injective y z hy hz he) hx
  have himage : ∀ y, h.Reaches (f a) y → ∃ x, g.Reaches a x ∧ f x = y :=
    fun y hy => (r.reaches_image_iff (.refl g a)).1 hy
  refine ⟨k, hinv, fun y hy z hz => hy.trans (.operand hz), ?_, ?_⟩
  · intro y hy
    obtain ⟨x, hx, rfl⟩ := himage y hy
    have hback : ∀ z ∈ g.operands x, (k ∘ f) z = id z := fun z hz => hinv z (hx.trans (.operand hz))
    rw [hinv x hx, r.operands x hx, List.map_map, List.map_congr_left hback, List.map_id]
  · intro y z hy hz he
    obtain ⟨x, hx, rfl⟩ := himage y hy
    obtain ⟨w, hw, rfl⟩ := himage z hz
    rw [hinv x hx, hinv w hw] at he
    rw [he]

theorem trans {i : Dag} {k : Nat → Nat} (r : Renames g h (g.Reaches a) f)
    (r' : Renames h i (h.Reaches (f a)) k) : Renames g i (g.Reaches a) (k ∘ f) := by
  refine ⟨fun x hx y hy => hx.trans (.operand hy), fun x hx => ?_, fun x y hx hy he => ?_⟩
  · rw [Function.comp_apply, r'.operands _ (r.reaches_image hx), r.operands x hx, List.map_map]
  · exact r.injective x y hx hy (r'.injective _ _ (r.reaches_image hx) (r.reaches_image hy) he)

end Renames

end Synapse.Dag

namespace Synapse.Arena

theorem ordered_iff {nodes : Array Node} :
    Ordered nodes ↔ ∀ q ∈ nodes.toList.zipIdx, ∀ x ∈ q.1.operands, x < q.2 := by
  constructor
  · intro h q hq
    exact h q.2 q.1 (by simpa using List.mem_zipIdx_iff_getElem?.1 hq)
  · intro h id n hn
    exact h (n, id) (List.mem_zipIdx_iff_getElem?.2 (by simpa using hn))

instance (nodes : Array Node) : Decidable (Ordered nodes) := decidable_of_iff' _ ordered_iff

theorem operandsOf_eq {nodes : Array Node} (ho : Ordered nodes) {id : NodeId} {n : Node}
    (hn : nodes[id]? = some n) : operandsOf nodes id = n.operands := by
  simp only [operandsOf, hn]
  exact List.filter_eq_self.2 fun x hx => by simpa using ho id n hn x hx

theorem operandsOf_none {nodes : Array Node} {id : NodeId} (hn : nodes[id]? = none) :
    operandsOf nodes id = [] := by
  simp only [operandsOf, hn]

theorem find?_of_lt {nodes : Array Node} {id : NodeId} {n : Node} (hn : nodes[id]? = some n)
    (h : ∀ x ∈ n.operands, x < id) : find? nodes id = some ⟨n, h⟩ := by
  unfold find?
  split
  · simp_all
  · rename_i m hm
    obtain rfl : m = n := by simpa [hm] using hn
    rw [dif_pos h]

theorem find?_eq {nodes : Array Node} (ho : Ordered nodes) {id : NodeId} {n : Node}
    (hn : nodes[id]? = some n) : find? nodes id = some ⟨n, ho id n hn⟩ :=
  find?_of_lt hn (ho id n hn)

theorem of_find?_some {nodes : Array Node} {id : NodeId}
    {n : { n : Node // ∀ x ∈ n.operands, x < id }} (h : find? nodes id = some n) :
    nodes[id]? = some n.1 := by
  unfold find? at h
  split at h
  · cases h
  · split at h
    · cases h
      assumption
    · cases h

end Synapse.Arena
