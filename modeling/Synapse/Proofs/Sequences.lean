import Mathlib.Data.List.Forall2
import Mathlib.Tactic

namespace Synapse

section Exceptions

variable {ε α β : Type}

theorem bind_eq_ok {x : Except ε α} {f : α → Except ε β} {b : β} :
    (x >>= f) = .ok b ↔ ∃ a, x = .ok a ∧ f a = .ok b := by
  cases x <;> simp [bind, Except.bind]

theorem bind_eq_error {x : Except ε α} {f : α → Except ε β} {e : ε} :
    (x >>= f) = .error e ↔ x = .error e ∨ ∃ a, x = .ok a ∧ f a = .error e := by
  cases x <;> simp [bind, Except.bind]

end Exceptions

section Pointwise

variable {α β γ : Type} {R : α → β → Prop} {xs : List α} {ys : List β}

theorem rel_getElem? (h : List.Forall₂ R xs ys) (i : Nat) : Option.Rel R xs[i]? ys[i]? := by
  induction h generalizing i with
  | nil => exact .none
  | cons hr _ ih =>
    cases i with
    | zero => exact .some hr
    | succ i => exact ih i

theorem forall₂_getElem? (h : List.Forall₂ R xs ys) {i : Nat} {x : α} (hx : xs[i]? = some x) :
    ∃ y, ys[i]? = some y ∧ R x y := by
  have hrel := rel_getElem? h i
  rw [hx] at hrel
  generalize ys[i]? = b at hrel ⊢
  cases hrel with
  | some hr => exact ⟨_, rfl, hr⟩

theorem forall₂_getLast? (h : List.Forall₂ R xs ys) {x : α} (hx : xs.getLast? = some x) :
    ∃ y, ys.getLast? = some y ∧ R x y := by
  rw [List.getLast?_eq_getElem?] at hx
  obtain ⟨y, hy, hr⟩ := forall₂_getElem? h hx
  exact ⟨y, by rw [List.getLast?_eq_getElem?, ← h.length_eq, hy], hr⟩

theorem forall₂_mem (h : List.Forall₂ R xs ys) :
    List.Forall₂ (fun x y => x ∈ xs ∧ y ∈ ys ∧ R x y) xs ys := by
  have hright := (List.forall₂_and_left _ xs).2 ⟨fun y (hy : y ∈ ys) => hy, h.flip⟩
  exact (List.forall₂_and_left _ ys).2 ⟨fun x hx => hx, hright.flip⟩

theorem forall₂_range {R : Nat → α → Prop}
    (h : ∀ (i : Nat) (x : α), xs[i]? = some x → R i x) :
    List.Forall₂ R (List.range xs.length) xs := by
  refine List.forall₂_iff_get.2 ⟨List.length_range, fun i hi hi' => ?_⟩
  simpa using h i _ (List.getElem?_eq_getElem hi')

theorem forall₂_zipIdx (h : List.Forall₂ R xs ys) (k : Nat) :
    List.Forall₂ (fun p q => R p.1 q.1 ∧ q.2 = p.2) (xs.zipIdx k) (ys.zipIdx k) := by
  induction h generalizing k with
  | nil => exact .nil
  | cons hr _ ih => exact .cons ⟨hr, rfl⟩ (ih (k + 1))

/-- A list beside itself, with the membership that `List.rel_flatMap` and `List.rel_filterMap` do
not hand on. -/
theorem forall₂_self (xs : List α) : List.Forall₂ (fun x y => x ∈ xs ∧ x = y) xs xs :=
  List.forall₂_same.2 fun _ hx => ⟨hx, rfl⟩

theorem forall₂_flatMap {R : β → γ → Prop} {f : α → List β} {g : α → List γ}
    (h : ∀ x ∈ xs, List.Forall₂ R (f x) (g x)) : List.Forall₂ R (xs.flatMap f) (xs.flatMap g) := by
  apply List.rel_flatMap (forall₂_self xs)
  rintro x _ ⟨hx, rfl⟩
  exact h x hx

theorem forall₂_filterMap {R : β → γ → Prop} {f : α → Option β} {g : α → Option γ}
    (h : ∀ x ∈ xs, Option.Rel R (f x) (g x)) :
    List.Forall₂ R (xs.filterMap f) (xs.filterMap g) := by
  apply List.rel_filterMap _ (forall₂_self xs)
  rintro x _ ⟨hx, rfl⟩
  exact h x hx

theorem sublistForall₂_of_sublist {xs' : List α} (h : List.SublistForall₂ R xs ys)
    (hsub : xs'.Sublist xs) : List.SublistForall₂ R xs' ys := by
  induction h generalizing xs' with
  | nil =>
    rw [List.sublist_nil.1 hsub]
    exact .nil
  | cons hr _ ih =>
    cases hsub with
    | cons _ hsub => exact .cons_right (ih hsub)
    | cons_cons _ hsub => exact .cons hr (ih hsub)
  | cons_right _ ih => exact .cons_right (ih hsub)

end Pointwise

section Traversals

variable {m : Type → Type} [Monad m] {α β γ : Type}

theorem forM_eq_of_forall₂ {f : α → m PUnit} {g : β → m PUnit} {xs : List α} {ys : List β}
    (h : List.Forall₂ (fun x y => g y = f x) xs ys) : ys.forM g = xs.forM f := by
  induction h with
  | nil => rfl
  | @cons x y xs ys hxy _ ih =>
    change (g y >>= fun _ => ys.forM g) = f x >>= fun _ => xs.forM f
    rw [hxy, ih]

variable [LawfulMonad m]

theorem mapM_congr {f g : α → m β} {xs : List α} (h : ∀ x ∈ xs, f x = g x) :
    xs.mapM f = xs.mapM g := by
  induction xs with
  | nil => simp
  | cons x xs ih =>
    rw [List.mapM_cons, List.mapM_cons, h x List.mem_cons_self,
      ih fun y hy => h y (List.mem_cons_of_mem _ hy)]

theorem mapM_eq_pure {f : α → m β} {xs : List α} {ys : List β}
    (h : List.Forall₂ (fun x y => f x = pure y) xs ys) : xs.mapM f = pure ys := by
  induction h with
  | nil => simp
  | cons hx _ ih => simp [hx, ih]

theorem mapM_flatMap {f : α → List β} {g : β → m γ} {xs : List α} :
    (xs.flatMap f).mapM g = (xs.mapM fun x => (f x).mapM g) >>= fun ys => pure ys.flatten := by
  induction xs with
  | nil => simp
  | cons x xs ih => simp [List.mapM_append, ih]

theorem forM_flatMap {f : α → List β} {g : β → m PUnit} {xs : List α} :
    (xs.flatMap f).forM g = xs.forM fun x => (f x).forM g := by
  induction xs with
  | nil => rfl
  | cons x xs ih =>
    rw [List.flatMap_cons]
    exact List.forM_append.trans (congrArg ((f x).forM g >>= ·) (funext fun _ => ih))

end Traversals

section Searches

variable {α β : Type}

theorem mapM_eq_some_iff {f : α → Option β} {xs : List α} {ys : List β} :
    xs.mapM f = some ys ↔ List.Forall₂ (fun x y => f x = some y) xs ys := by
  constructor
  · intro h
    induction xs generalizing ys with
    | nil => simpa [eq_comm] using h
    | cons x xs ih =>
      rw [List.mapM_cons] at h
      obtain ⟨y, hy, h⟩ := Option.bind_eq_some_iff.1 h
      obtain ⟨zs, hzs, h⟩ := Option.bind_eq_some_iff.1 h
      obtain rfl := Option.some.inj h
      exact .cons hy (ih hzs)
  · exact mapM_eq_pure

theorem exists_mapM_eq_some {f : α → Option β} {xs : List α} :
    (∃ ys, xs.mapM f = some ys) ↔ ∀ x ∈ xs, ∃ y, f x = some y := by
  induction xs with
  | nil => simp
  | cons x xs ih =>
    rw [List.forall_mem_cons, ← ih]
    simp only [mapM_eq_some_iff, List.forall₂_cons_left_iff]
    constructor
    · rintro ⟨_, y, ys, hy, hys, rfl⟩
      exact ⟨⟨y, hy⟩, ys, hys⟩
    · rintro ⟨⟨y, hy⟩, ys, hys⟩
      exact ⟨y :: ys, y, ys, hy, hys, rfl⟩

theorem mapM_range_getElem? (xs : List α) : (List.range xs.length).mapM (xs[·]?) = some xs := by
  rw [mapM_eq_some_iff, List.forall₂_iff_get]
  simp

theorem mapM_range_getD (f : Nat → Option β) (ns : List Nat) :
    (List.range ns.length).mapM (fun i => f (ns.getD i 0)) = ns.mapM f := by
  have hmap : (List.range ns.length).map (ns.getD · 0) = ns := by
    refine List.ext_getElem (by simp) fun i h₁ h₂ => ?_
    simp [List.getD_eq_getElem?_getD, h₂]
  conv_rhs => rw [← hmap, List.mapM_map]
  rfl

end Searches

section FirstFailure

variable {ε α β : Type} {xs : List α} {e : ε}

/-- A search stops at the first thing that it does not find. -/
theorem mapM_eq_error {f : α → Except ε β} (h : xs.mapM f = .error e) :
    ∃ before x after ys, xs = before ++ x :: after ∧ before.mapM f = .ok ys ∧
      f x = .error e := by
  induction xs with
  | nil => cases h
  | cons x xs ih =>
    rw [List.mapM_cons] at h
    rcases bind_eq_error.1 h with hx | ⟨y, hx, h⟩
    · exact ⟨[], x, xs, [], rfl, rfl, hx⟩
    rcases bind_eq_error.1 h with hxs | ⟨ys, _, h⟩
    · obtain ⟨before, z, after, ys, rfl, hbefore, hz⟩ := ih hxs
      refine ⟨x :: before, z, after, y :: ys, rfl, ?_, hz⟩
      rw [List.mapM_cons, hx, hbefore]
      rfl
    · cases h

theorem forM_eq_ok {f : α → Except ε Unit} : xs.forM f = .ok () ↔ ∀ x ∈ xs, f x = .ok () := by
  induction xs with
  | nil => simp [List.forM, pure, Except.pure]
  | cons x xs ih =>
    change (f x >>= fun _ => xs.forM f) = _ ↔ _
    rw [bind_eq_ok, List.forall_mem_cons, ← ih]
    exact ⟨fun ⟨_, hx, hxs⟩ => ⟨hx, hxs⟩, fun ⟨hx, hxs⟩ => ⟨(), hx, hxs⟩⟩

/-- A loop stops at the first thing that fails. -/
theorem forM_eq_error {f : α → Except ε Unit} :
    xs.forM f = .error e ↔ ∃ before x after, xs = before ++ x :: after ∧
      (∀ y ∈ before, f y = .ok ()) ∧ f x = .error e := by
  constructor
  · intro h
    induction xs with
    | nil => cases h
    | cons x xs ih =>
      rcases bind_eq_error.1 h with hx | ⟨_, hx, hxs⟩
      · exact ⟨[], x, xs, rfl, List.forall_mem_nil _, hx⟩
      · obtain ⟨before, y, after, rfl, hbefore, hy⟩ := ih hxs
        exact ⟨x :: before, y, after, rfl, List.forall_mem_cons.2 ⟨hx, hbefore⟩, hy⟩
  · rintro ⟨before, x, after, rfl, hbefore, hx⟩
    induction before with
    | nil => exact bind_eq_error.2 (.inl hx)
    | cons y before ih =>
      have hrest := ih fun z hz => hbefore z (List.mem_cons_of_mem _ hz)
      exact bind_eq_error.2 (.inr ⟨(), hbefore y List.mem_cons_self, hrest⟩)

theorem forM_zipIdx_eq_ok {f : α × Nat → Except ε Unit} :
    xs.zipIdx.forM f = .ok () ↔ ∀ (i : Nat) (x : α), xs[i]? = some x → f (x, i) = .ok () := by
  rw [forM_eq_ok]
  constructor
  · intro h i x hx
    exact h (x, i) (List.mk_mem_zipIdx_iff_getElem?.2 hx)
  · intro h q hq
    exact h q.2 q.1 (List.mem_zipIdx_iff_getElem?.1 hq)

/-- A loop over numbered things stops at the first that fails. -/
theorem forM_zipIdx_eq_error {f : α × Nat → Except ε Unit} :
    xs.zipIdx.forM f = .error e ↔ ∃ (i : Nat) (x : α), xs[i]? = some x ∧
      f (x, i) = .error e ∧ ∀ j < i, ∀ y, xs[j]? = some y → f (y, j) = .ok () := by
  have hget : ∀ (j : Nat) (q : α × Nat), xs.zipIdx[j]? = some q ↔ xs[j]? = some q.1 ∧ j = q.2 := by
    intro j q
    rw [List.getElem?_zipIdx, Option.map_eq_some_iff]
    simp [Prod.ext_iff, and_comm]
  rw [forM_eq_error]
  constructor
  · rintro ⟨before, q, after, hsplit, hbefore, hq⟩
    have hhere : xs.zipIdx[before.length]? = some q := by simp [hsplit]
    obtain ⟨hx, hnumber⟩ := (hget _ _).1 hhere
    refine ⟨q.2, q.1, hnumber ▸ hx, hq, fun j hj y hy => hbefore (y, j) ?_⟩
    have hthere : xs.zipIdx[j]? = some (y, j) := (hget _ _).2 ⟨hy, rfl⟩
    rw [hsplit, List.getElem?_append_left (hnumber ▸ hj)] at hthere
    exact List.mem_of_getElem? hthere
  · rintro ⟨i, x, hx, hfail, hbefore⟩
    obtain ⟨hi, hhere⟩ := List.getElem?_eq_some_iff.1 ((hget i (x, i)).2 ⟨hx, rfl⟩)
    refine ⟨xs.zipIdx.take i, (x, i), xs.zipIdx.drop (i + 1), ?_, fun q hq => ?_, hfail⟩
    · rw [← hhere, List.getElem_cons_drop, List.take_append_drop]
    · obtain ⟨j, hj⟩ := List.mem_iff_getElem?.1 hq
      rw [List.getElem?_take] at hj
      split at hj
      · obtain ⟨hy, rfl⟩ := (hget _ _).1 hj
        exact hbefore q.2 ‹_› q.1 hy
      · cases hj

end FirstFailure

section Places

variable {α β : Type}

theorem of_getElem?_range {n i x : Nat} (h : (List.range n)[i]? = some x) : i < n ∧ i = x := by
  obtain ⟨hi, hx⟩ := List.getElem?_eq_some_iff.1 h
  exact ⟨by simpa using hi, by simpa using hx⟩

theorem getElem?_filterMap_of_isSome {f : α → Option β} {xs : List α}
    (h : ∀ x ∈ xs, ∃ y, f x = some y) (j : Nat) : (xs.filterMap f)[j]? = xs[j]?.bind f := by
  induction xs generalizing j with
  | nil => simp
  | cons x xs ih =>
    obtain ⟨y, hy⟩ := h x (by simp)
    rw [List.filterMap_cons_some hy]
    cases j with
    | zero => simp [hy]
    | succ j => simpa using ih (fun z hz => h z (by simp [hz])) j

theorem push_some {xs : Array α} {x : α} {n : Nat} (h : xs[n]? = some x) (y : α) :
    (xs.push y)[n]? = some x := by
  have hn : n < xs.size := (Array.getElem?_eq_some_iff.1 h).1
  rw [Array.getElem?_push, if_neg hn.ne, h]

theorem of_push_some {xs : Array α} {x y : α} {n : Nat} (h : (xs.push y)[n]? = some x) :
    xs[n]? = some x ∨ n = xs.size ∧ x = y := by
  rw [Array.getElem?_push] at h
  split at h
  · rename_i hn
    exact .inr ⟨hn, (Option.some.inj h).symm⟩
  · exact .inl h

theorem of_setIfInBounds_some {xs : Array α} {x y : α} {i j : Nat}
    (h : (xs.setIfInBounds i y)[j]? = some x) : xs[j]? = some x ∨ j = i ∧ x = y := by
  rw [Array.getElem?_setIfInBounds] at h
  split at h
  · rename_i he
    exact .inr ⟨he.symm, (Option.some.inj (Option.ite_none_right_eq_some.1 h).2).symm⟩
  · exact .inl h

theorem size_eq_of_getElem? {f : α → β} {xs ys : Array α}
    (h : ∀ i : Nat, ys[i]?.map f = xs[i]?.map f) : ys.size = xs.size := by
  have hle : ∀ i, ys.size ≤ i ↔ xs.size ≤ i := by
    intro i
    rw [← Array.getElem?_eq_none_iff, ← Array.getElem?_eq_none_iff, ← Option.map_eq_none_iff, h,
      Option.map_eq_none_iff]
  have hxs := hle xs.size
  have hys := hle ys.size
  omega

end Places

end Synapse
