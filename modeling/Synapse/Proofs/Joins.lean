import Mathlib.Tactic
import Synapse.Ty

namespace Synapse

theorem Scalar.join_eq_none {s t : Scalar} : s.join t = none ↔ ¬(s = .bool ↔ t = .bool) := by
  cases s <;> cases t <;> simp [join]

theorem Scalar.of_join {s t r : Scalar} (h : s.join t = some r) :
    (r = .real ↔ s = .real ∨ t = .real) ∧ (r = .bool ↔ s = .bool ∧ t = .bool) := by
  cases s <;> cases t <;> cases r <;> simp_all [join]

namespace Ty

variable {t u v : Ty} {ts us : List Ty}

theorem ext_of_parts (helem : t.elem = u.elem) (hvector : t.isVector = u.isVector)
    (hlen : t.len = u.len) : t = u := by
  cases t <;> cases u <;> simp_all [elem, isVector, isScalar, len]

/-- Booleans are only joined with booleans. -/
def Unmixed (ts : List Ty) : Prop := (∀ t ∈ ts, t.elem = .bool) ∨ ∀ t ∈ ts, t.elem ≠ .bool

/-- The type that all of the given types widen to. -/
structure IsJoin (ts : List Ty) (t : Ty) : Prop where
  real : t.elem = .real ↔ ∃ u ∈ ts, u.elem = .real
  bool : t.elem = .bool ↔ ∀ u ∈ ts, u.elem = .bool
  vector : t.isVector ↔ ∃ u ∈ ts, u.isVector
  unknown : t.len = none ↔ ∀ u ∈ ts, u.len = none
  least : ∀ n, t.len = some n → IsLeast {m | ∃ u ∈ ts, u.len = some m} n

namespace IsJoin

theorem singleton (t : Ty) : IsJoin [t] t := by
  constructor <;> simp_all [IsLeast, lowerBounds]

theorem perm (h : IsJoin ts t) (hp : ts.Perm us) : IsJoin us t := by
  have hmem : ∀ u, u ∈ us ↔ u ∈ ts := fun u => hp.mem_iff.symm
  constructor <;> simp only [hmem]
  · exact h.real
  · exact h.bool
  · exact h.vector
  · exact h.unknown
  · exact h.least

theorem unique (h : IsJoin ts t) (h' : IsJoin ts u) : t = u := by
  have helem : t.elem = u.elem := by
    have hreal : t.elem = .real ↔ u.elem = .real := h.real.trans h'.real.symm
    have hbool : t.elem = .bool ↔ u.elem = .bool := h.bool.trans h'.bool.symm
    cases ht : t.elem <;> cases hu : u.elem <;> simp_all
  have hvector : t.isVector = u.isVector := by
    rw [Bool.eq_iff_iff, h.vector, h'.vector]
  have hlen : t.len = u.len := by
    have hunknown : t.len = none ↔ u.len = none := h.unknown.trans h'.unknown.symm
    cases ht : t.len with
    | none => rw [hunknown.1 ht]
    | some n =>
      cases hu : u.len with
      | none => simp_all
      | some m =>
        have hsame : n = m := (h.least n ht).unique (h'.least m hu)
        rw [hsame]
  exact ext_of_parts helem hvector hlen

end IsJoin

theorem shorter_eq_none {m n : Option Nat} : shorter m n = none ↔ m = none ∧ n = none := by
  cases m <;> cases n <;> simp [shorter]

theorem join_eq_none : t.join u = none ↔ ¬(t.elem = .bool ↔ u.elem = .bool) := by
  rw [← Scalar.join_eq_none]
  cases h : t.elem.join u.elem with
  | none => simp [join, h]
  | some s =>
    simp only [join, h, Option.bind_eq_bind, Option.bind_some, reduceCtorEq, iff_false]
    split <;> simp

/-- The parts of a join. -/
theorem of_join (h : t.join u = some v) :
    t.elem.join u.elem = some v.elem ∧ v.isVector = (t.isVector || u.isVector) ∧
      v.len = shorter t.len u.len := by
  simp only [join, Option.bind_eq_bind, Option.bind_eq_some_iff] at h
  obtain ⟨s, hs, h⟩ := h
  cases t <;> cases u
  all_goals
    cases h
    exact ⟨hs, rfl, rfl⟩

/-- Joins of two lists join to a join of both together. -/
theorem IsJoin.append (ht : IsJoin ts t) (hu : IsJoin us u) (h : t.join u = some v) :
    IsJoin (ts ++ us) v := by
  obtain ⟨helem, hvector, hlen⟩ := of_join h
  obtain ⟨hreal, hbool⟩ := Scalar.of_join helem
  constructor
  · rw [hreal, ht.real, hu.real]
    simp [or_and_right, exists_or]
  · rw [hbool, ht.bool, hu.bool]
    simp [or_imp, forall_and]
  · rw [hvector, Bool.or_eq_true, ht.vector, hu.vector]
    simp [or_and_right, exists_or]
  · rw [hlen, shorter_eq_none, ht.unknown, hu.unknown]
    simp [or_imp, forall_and]
  · intro n hn
    have hboth : {m | ∃ w ∈ ts ++ us, w.len = some m} =
        {m | ∃ w ∈ ts, w.len = some m} ∪ {m | ∃ w ∈ us, w.len = some m} := by
      ext m
      simp [or_and_right, exists_or]
    rw [hboth]
    cases hi : t.len with
    | none =>
      have hempty : {m | ∃ w ∈ ts, w.len = some m} = ∅ := by
        ext m
        simp +contextual [ht.unknown.1 hi]
      rw [hempty, Set.empty_union]
      exact hu.least n (by simpa [hlen, hi, shorter] using hn)
    | some i =>
      cases hj : u.len with
      | none =>
        have hempty : {m | ∃ w ∈ us, w.len = some m} = ∅ := by
          ext m
          simp +contextual [hu.unknown.1 hj]
        rw [hempty, Set.union_empty]
        exact ht.least n (by simpa [hlen, hi, hj, shorter] using hn)
      | some j =>
        have hmin : min i j = n := by simpa [hlen, hi, hj, shorter] using hn
        rw [← hmin]
        exact (ht.least i hi).union (hu.least j hj)

/-- Without booleans the join is no boolean either. -/
theorem IsJoin.elem_ne_bool (h : IsJoin ts t) (hts : ts ≠ []) (hnone : ∀ u ∈ ts, u.elem ≠ .bool) :
    t.elem ≠ .bool := by
  intro hbool
  obtain ⟨u, hu⟩ := List.exists_mem_of_ne_nil ts hts
  exact hnone u hu (h.bool.1 hbool u hu)

theorem Unmixed.of_append (h : Unmixed (ts ++ us)) : Unmixed ts ∧ Unmixed us := by
  rcases h with hall | hnone
  · exact ⟨.inl fun t ht => hall t (by simp [ht]), .inl fun t ht => hall t (by simp [ht])⟩
  · exact ⟨.inr fun t ht => hnone t (by simp [ht]), .inr fun t ht => hnone t (by simp [ht])⟩

theorem Unmixed.append (hts : Unmixed ts) (hus : Unmixed us) (ht : IsJoin ts t) (hu : IsJoin us u)
    (h : t.elem = .bool ↔ u.elem = .bool) : Unmixed (ts ++ us) := by
  have hnone : ∀ {ts : List Ty} {t : Ty}, Unmixed ts → IsJoin ts t → t.elem ≠ .bool →
      ∀ u ∈ ts, u.elem ≠ .bool := by
    intro ts t hts ht hne
    exact hts.resolve_left fun hall => hne (ht.bool.2 hall)
  by_cases hbool : t.elem = .bool
  · have hleft := ht.bool.1 hbool
    have hright := hu.bool.1 (h.1 hbool)
    left
    simpa [or_imp, forall_and] using ⟨hleft, hright⟩
  · have hleft := hnone hts ht hbool
    have hright := hnone hus hu fun hu => hbool (h.2 hu)
    right
    simpa [or_imp, forall_and] using ⟨hleft, hright⟩

/-- A way to join types two at a time. -/
inductive Nesting where
  | one (t : Ty)
  | pair (l r : Nesting)

namespace Nesting

/-- The types that are joined, from left to right. -/
def leaves : Nesting → List Ty
  | one t => [t]
  | pair l r => l.leaves ++ r.leaves

def joined : Nesting → Option Ty
  | one t => some t
  | pair l r => do (← l.joined).join (← r.joined)

theorem leaves_ne_nil (n : Nesting) : n.leaves ≠ [] := by
  induction n with
  | one t => simp [leaves]
  | pair l r ihl _ => simp [leaves, ihl]

theorem of_joined {n : Nesting} (h : n.joined = some t) :
    Unmixed n.leaves ∧ IsJoin n.leaves t := by
  induction n generalizing t with
  | one u =>
    have heq : u = t := Option.some.inj h
    have hunmixed : Unmixed [u] := by simp [Unmixed, em]
    exact ⟨hunmixed, heq ▸ .singleton u⟩
  | pair l r ihl ihr =>
    simp only [joined, Option.bind_eq_bind, Option.bind_eq_some_iff] at h
    obtain ⟨a, ha, b, hb, hab⟩ := h
    obtain ⟨hl, hjl⟩ := ihl ha
    obtain ⟨hr, hjr⟩ := ihr hb
    have hbool : a.elem = .bool ↔ b.elem = .bool := by
      by_contra hne
      simp [join_eq_none.2 hne] at hab
    exact ⟨hl.append hr hjl hjr hbool, hjl.append hjr hab⟩

theorem exists_joined {n : Nesting} (h : Unmixed n.leaves) : ∃ t, n.joined = some t := by
  induction n with
  | one t => exact ⟨t, rfl⟩
  | pair l r ihl ihr =>
    obtain ⟨a, ha⟩ := ihl h.of_append.1
    obtain ⟨b, hb⟩ := ihr h.of_append.2
    have hjl := (of_joined ha).2
    have hjr := (of_joined hb).2
    have hbool : a.elem = .bool ↔ b.elem = .bool := by
      rcases h with hall | hnone
      · have hleft : a.elem = .bool := hjl.bool.2 fun u hu => hall u (by simp [leaves, hu])
        have hright : b.elem = .bool := hjr.bool.2 fun u hu => hall u (by simp [leaves, hu])
        simp [hleft, hright]
      · have hleft := hjl.elem_ne_bool l.leaves_ne_nil fun u hu => hnone u (by simp [leaves, hu])
        have hright := hjr.elem_ne_bool r.leaves_ne_nil fun u hu => hnone u (by simp [leaves, hu])
        simp [hleft, hright]
    obtain ⟨v, hv⟩ := Option.ne_none_iff_exists'.1 fun hnone => join_eq_none.1 hnone hbool
    exact ⟨v, by simp [joined, ha, hb, hv]⟩

end Nesting

end Ty

/-- Types can be joined in any order and with any nesting, and the outcome is the same: there is one
unless booleans meet other types, and it is the type that all of them widen to. -/
theorem joining_ignores_order {ts : List Ty} {n : Ty.Nesting} (h : n.leaves.Perm ts) :
    (n.joined.isSome ↔ (∀ t ∈ ts, t.elem = .bool) ∨ ∀ t ∈ ts, t.elem ≠ .bool) ∧
      (∀ t, n.joined = some t → Ty.IsJoin ts t) ∧
      ∀ n' : Ty.Nesting, n'.leaves.Perm ts → n'.joined = n.joined := by
  have hunmixed : ∀ {n : Ty.Nesting}, n.leaves.Perm ts → (n.joined.isSome ↔ Ty.Unmixed ts) := by
    intro n hn
    have hsame : Ty.Unmixed n.leaves ↔ Ty.Unmixed ts := by
      simp only [Ty.Unmixed, hn.mem_iff]
    rw [← hsame, Option.isSome_iff_exists]
    exact ⟨fun ⟨t, ht⟩ => (Ty.Nesting.of_joined ht).1, Ty.Nesting.exists_joined⟩
  have hjoin : ∀ {n : Ty.Nesting}, n.leaves.Perm ts → ∀ t, n.joined = some t → Ty.IsJoin ts t :=
    fun hn t ht => (Ty.Nesting.of_joined ht).2.perm hn
  refine ⟨hunmixed h, hjoin h, fun n' h' => ?_⟩
  have hsome : n'.joined.isSome ↔ n.joined.isSome := (hunmixed h').trans (hunmixed h).symm
  cases hn : n.joined with
  | none =>
    rw [hn] at hsome
    simpa using hsome
  | some t =>
    rw [hn] at hsome
    obtain ⟨t', ht'⟩ := Option.isSome_iff_exists.1 (hsome.2 rfl)
    rw [ht', (hjoin h' t' ht').unique (hjoin h t hn)]

/-- Two vectors whose lengths are known, one whose length is not, and two scalars. -/
def Ty.Nesting.crossed : Ty.Nesting :=
  .pair (.pair (.one (.vector .int none)) (.one .int))
    (.pair (.one (.vector .int (some 3))) (.pair (.one .real) (.one (.vector .int (some 2)))))

theorem crossed_ignores_order :
    Ty.Nesting.crossed.leaves.Perm
        [.real, .int, .vector .int (some 2), .vector .int (some 3), .vector .int none] ∧
      Ty.Nesting.crossed.joined = some (.vector .real (some 2)) ∧
      ∀ n : Ty.Nesting, n.leaves.Perm
          [.real, .int, .vector .int (some 2), .vector .int (some 3), .vector .int none] →
        n.joined = Ty.Nesting.crossed.joined := by
  have hperm : Ty.Nesting.crossed.leaves.Perm
      [.real, .int, .vector .int (some 2), .vector .int (some 3), .vector .int none] := by decide
  exact ⟨hperm, rfl, (joining_ignores_order hperm).2.2⟩

end Synapse
