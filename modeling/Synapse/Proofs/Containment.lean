import Mathlib.Data.List.DropRight
import Mathlib.Data.List.NodupEquivFin
import Mathlib.Tactic
import Synapse.Text.Lines
import Synapse.Proofs.Sequences

namespace Synapse.Text

/-- The lines of a text, without the white space around the text. -/
def textLines (text : String) : List TextLine := lines (trim text.toList)

/-- The lines with anything but white space in them. -/
def nonBlank (ls : List TextLine) : List TextLine := ls.filter fun l => l.any fun c => !isBlank c

/-- The wanted lines can be found in lines of a text, in order and each in a line of its own. -/
def Embeds (wanted left : List TextLine) : Prop :=
  ∃ f : Fin wanted.length → Fin left.length,
    StrictMono f ∧ ∀ i, trim (wanted.get i) <:+: left.get (f i)

theorem trim_eq_nil {l : TextLine} : trim l = [] ↔ ∀ c ∈ l, isBlank c = true := by
  have hinner : trim l = [] ↔ ∀ c ∈ l.dropWhile isBlank, isBlank c = true := by
    simp only [trim, List.reverse_eq_nil_iff, List.dropWhile_eq_nil_iff, List.mem_reverse]
  rw [hinner]
  constructor
  · intro h c hc
    rw [← List.takeWhile_append_dropWhile (p := isBlank) (l := l), List.mem_append] at hc
    exact hc.elim List.mem_takeWhile_imp (h c)
  · intro h c hc
    exact h c ((List.dropWhile_suffix isBlank).subset hc)

theorem trim_infix (l : TextLine) : trim l <:+: l := by
  have hright : trim l <+: l.dropWhile isBlank := List.rdropWhile_prefix isBlank _
  exact hright.isInfix.trans (List.dropWhile_suffix isBlank).isInfix

theorem nonBlank_cons (w : TextLine) (ws : List TextLine) :
    nonBlank (w :: ws) = if trim w = [] then nonBlank ws else w :: nonBlank ws := by
  have hany : (w.any fun c => !isBlank c) = true ↔ trim w ≠ [] := by
    simp [trim_eq_nil]
  by_cases hw : trim w = []
  · simp_all [nonBlank]
  · simp [nonBlank, hany.2 hw, hw]

theorem contains_eq_true {w : List Char} {l : TextLine} : contains w l = true ↔ w <:+: l := by
  induction l with
  | nil => simp [contains]
  | cons c l ih =>
    rw [contains, Bool.or_eq_true, ih, List.isPrefixOf_iff_prefix, List.infix_cons_iff]

/-- A wanted line is contained in a line. -/
def FoundIn (w l : TextLine) : Prop := trim w <:+: l

theorem embeds_iff {wanted left : List TextLine} :
    Embeds wanted left ↔ List.SublistForall₂ FoundIn wanted left := by
  rw [List.sublistForall₂_iff]
  constructor
  · rintro ⟨f, hf, hfound⟩
    refine ⟨List.ofFn fun i => left.get (f i), ?_, ?_⟩
    · refine List.forall₂_iff_get.2 ⟨by simp, fun i hi _ => ?_⟩
      have hget := hfound ⟨i, hi⟩
      simpa [FoundIn] using hget
    · refine List.sublist_iff_exists_fin_orderEmbedding_get_eq.2
        ⟨(Fin.castOrderIso (by simp)).toOrderEmbedding.trans (OrderEmbedding.ofStrictMono f hf), ?_⟩
      intro i
      exact List.get_ofFn _ i
  · rintro ⟨found, hfound, hsub⟩
    obtain ⟨f, hf⟩ := List.sublist_iff_exists_fin_orderEmbedding_get_eq.1 hsub
    obtain ⟨hlength, hget⟩ := List.forall₂_iff_get.1 hfound
    refine ⟨fun i => f (Fin.cast hlength i), ?_, fun i => ?_⟩
    · intro i j hij
      exact f.strictMono hij
    · rw [← hf]
      exact hget i i.2 (hlength ▸ i.2)

/-- The first line that contains the first wanted line is as good a choice as any: the other wanted
lines then have the most lines left. -/
theorem sublistForall₂_cons_iff {w : TextLine} {ws left : List TextLine} :
    List.SublistForall₂ FoundIn (w :: ws) left ↔
      ∃ rest, linesAfter (trim w) left = some rest ∧ List.SublistForall₂ FoundIn ws rest := by
  induction left with
  | nil =>
    simp only [linesAfter, reduceCtorEq, false_and, exists_false, iff_false]
    intro h
    cases h
  | cons l left ih =>
    by_cases hl : contains (trim w) l = true
    · rw [linesAfter, if_pos hl]
      simp only [Option.some.injEq, exists_eq_left']
      constructor
      · intro h
        cases h with
        | cons _ h => exact h
        | cons_right h => exact sublistForall₂_of_sublist h (List.sublist_cons_self w ws)
      · intro h
        exact .cons (contains_eq_true.1 hl) h
    · rw [linesAfter, if_neg hl, ← ih]
      constructor
      · intro h
        cases h with
        | cons hfound _ => exact absurd (contains_eq_true.2 hfound) hl
        | cons_right h => exact h
      · intro h
        exact .cons_right h

theorem firstMissing_eq_none {i : Nat} {left wanted : List TextLine} :
    firstMissing i left wanted = none ↔ Embeds (nonBlank wanted) left := by
  rw [embeds_iff]
  induction wanted generalizing i left with
  | nil => simp [firstMissing, nonBlank, List.SublistForall₂.nil]
  | cons w ws ih =>
    rw [firstMissing, nonBlank_cons]
    by_cases hw : trim w = []
    · rw [if_pos hw, if_pos hw, ih]
    · rw [if_neg hw, if_neg hw, sublistForall₂_cons_iff]
      cases hrest : linesAfter (trim w) left with
      | none => simp
      | some rest => simp [ih]

/-- Where the check stops, the wanted lines before can all be found. -/
theorem firstMissing_eq_some {i k : Nat} {left wanted : List TextLine}
    (h : firstMissing i left wanted = some k) :
    ∃ j < wanted.length, k = i + j ∧ firstMissing i left (wanted.take j) = none ∧
      firstMissing i left (wanted.take (j + 1)) = some k := by
  induction wanted generalizing i left with
  | nil => simp [firstMissing] at h
  | cons w ws ih =>
    rw [firstMissing] at h
    by_cases hw : trim w = []
    · rw [if_pos hw] at h
      obtain ⟨j, hj, hk, hbefore, hhere⟩ := ih h
      refine ⟨j + 1, by simpa using hj, by omega, ?_, ?_⟩
      · simpa [firstMissing, hw] using hbefore
      · simpa [firstMissing, hw] using hhere
    · rw [if_neg hw] at h
      cases hrest : linesAfter (trim w) left with
      | none =>
        simp only [hrest, Option.some.injEq] at h
        exact ⟨0, by simp, by omega, by simp [firstMissing], by simp [firstMissing, hw, hrest, h]⟩
      | some rest =>
        simp only [hrest] at h
        obtain ⟨j, hj, hk, hbefore, hhere⟩ := ih h
        refine ⟨j + 1, by simpa using hj, by omega, ?_, ?_⟩
        · simpa [firstMissing, hw, hrest] using hbefore
        · simpa [firstMissing, hw, hrest] using hhere

theorem Embeds.take {wanted left : List TextLine} {m n : Nat} (hmn : m ≤ n)
    (h : Embeds (nonBlank (wanted.take n)) left) : Embeds (nonBlank (wanted.take m)) left := by
  rw [embeds_iff] at h ⊢
  exact sublistForall₂_of_sublist h ((List.take_sublist_take_left hmn).filter _)

/-- The line that is missing is the first with which the lines up to it cannot be found. -/
theorem firstMissing_eq_some_iff {k : Nat} {left wanted : List TextLine} :
    firstMissing 0 left wanted = some k ↔
      IsLeast {i | i < wanted.length ∧ ¬ Embeds (nonBlank (wanted.take (i + 1))) left} k := by
  have hleast : ∀ j, firstMissing 0 left wanted = some j →
      IsLeast {i | i < wanted.length ∧ ¬ Embeds (nonBlank (wanted.take (i + 1))) left} j := by
    intro j hj
    obtain ⟨j', hlt, hadd, hbefore, hhere⟩ := firstMissing_eq_some hj
    obtain rfl : j = j' := by omega
    refine ⟨⟨hlt, fun hembeds => ?_⟩, fun i hi => ?_⟩
    · rw [firstMissing_eq_none.2 hembeds] at hhere
      cases hhere
    · by_contra hij
      exact hi.2 ((firstMissing_eq_none.1 hbefore).take (by omega))
  constructor
  · exact hleast k
  · intro hk
    cases hfirst : firstMissing 0 left wanted with
    | none =>
      have hall : Embeds (nonBlank (wanted.take wanted.length)) left := by
        rw [List.take_length]
        exact firstMissing_eq_none.1 hfirst
      exact absurd (hall.take hk.1.1) hk.1.2
    | some j => rw [(hleast j hfirst).unique hk]

theorem compareLines_eq_none {i : Nat} {as es : List TextLine} :
    compareLines i as es = none ↔ List.Forall₂ (fun a e => trim a = trim e) as es := by
  induction as generalizing i es with
  | nil => cases es <;> simp [compareLines]
  | cons a as ih =>
    cases es with
    | nil => simp [compareLines]
    | cons e es =>
      by_cases he : trim a = trim e
      · simp [compareLines, he, ih]
      · simp [compareLines, he]

/-- Lines that agree with those expected contain them. -/
theorem embeds_of_compareLines {i : Nat} {as es : List TextLine}
    (h : compareLines i as es = none) : Embeds (nonBlank es) as := by
  have hfound : List.Forall₂ FoundIn es as := by
    refine (compareLines_eq_none.1 h).flip.imp fun e a he => ?_
    change trim e <:+: a
    rw [← he]
    exact trim_infix a
  have hall : List.SublistForall₂ FoundIn es as :=
    List.sublistForall₂_iff.2 ⟨as, hfound, .refl as⟩
  rw [embeds_iff]
  exact sublistForall₂_of_sublist hall List.filter_sublist

theorem marked_eq (wanted : List TextLine) (i : Nat) :
    Mismatch.marked wanted i =
      "\n".intercalate ((wanted.map String.ofList).modify i (· ++ "   <== missing")) := by
  refine congrArg _ (List.ext_getElem (by simp) fun j hj _ => ?_)
  by_cases hji : j = i
  · simp [hji]
  · simp [hji, Ne.symm hji]

/-- The check for contained lines passes if there is any way to find the wanted lines in order.
Otherwise it marks the first line up to which there is none. It passes where the exact check
does. -/
theorem contained_iff_found_in_order (actual expected : String) :
    (checkContained actual expected = none ↔
      Embeds (nonBlank (textLines expected)) (textLines actual)) ∧
    (∀ m, checkContained actual expected = some m ↔
      ∃ i, IsLeast {i | i < (textLines expected).length ∧
          ¬ Embeds (nonBlank ((textLines expected).take (i + 1))) (textLines actual)} i ∧
        m = .lacking (textLines expected) i) ∧
    (∀ i, Mismatch.marked (textLines expected) i = "\n".intercalate
      (((textLines expected).map String.ofList).modify i (· ++ "   <== missing"))) ∧
    (checkExact actual expected = none → checkContained actual expected = none) := by
  have hchecked : checkContained actual expected =
      (firstMissing 0 (textLines actual) (textLines expected)).map
        (.lacking (textLines expected)) := rfl
  have hnone : checkContained actual expected = none ↔
      Embeds (nonBlank (textLines expected)) (textLines actual) := by
    rw [hchecked, Option.map_eq_none_iff, firstMissing_eq_none]
  refine ⟨hnone, fun m => ?_, marked_eq _, fun hexact => ?_⟩
  · rw [hchecked, Option.map_eq_some_iff]
    simp only [firstMissing_eq_some_iff, eq_comm (a := m)]
  · exact hnone.2 (embeds_of_compareLines hexact)

end Synapse.Text
