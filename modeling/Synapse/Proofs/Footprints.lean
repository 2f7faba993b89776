import Mathlib.Tactic
import Synapse.Proofs.Scopes

namespace Synapse

namespace Formula

/-- The variables that are read to evaluate a formula. -/
def vars : Formula → List VarId
  | literal _ => []
  | var v => [v]
  | element v i => v :: i.vars
  | entry _ i => i.vars
  | unary _ x | activate _ x => x.vars
  | binary _ l r => l.vars ++ r.vars

/-- The variables that are read to assign to a formula. -/
def indexVars : Formula → List VarId
  | element _ i => i.vars
  | _ => []

end Formula

namespace Code

mutual

/-- The variables that a statement writes. A loop writes its index too. -/
def writes : Code → List VarId
  | define v => [v]
  | assign lhs _ => lhs.target?.toList
  | loop index _ _ body => index :: allWrites body

def allWrites : List Code → List VarId
  | [] => []
  | c :: rest => c.writes ++ allWrites rest

end

mutual

def reads : Code → List VarId
  | define _ => []
  | assign lhs rhs => rhs.vars ++ lhs.indexVars
  | loop _ start stop body => start.vars ++ stop.vars ++ allReads body

def allReads : List Code → List VarId
  | [] => []
  | c :: rest => c.reads ++ allReads rest

end

theorem mem_allWrites {cs : List Code} {v : VarId} :
    v ∈ allWrites cs ↔ ∃ c ∈ cs, v ∈ c.writes := by
  induction cs with
  | nil => simp [allWrites]
  | cons c cs ih => simp [allWrites, ih]

theorem mem_allReads {cs : List Code} {v : VarId} : v ∈ allReads cs ↔ ∃ c ∈ cs, v ∈ c.reads := by
  induction cs with
  | nil => simp [allReads]
  | cons c cs ih => simp [allReads, ih]

end Code

/-- Every variable that a formula reads is in `Q`. -/
abbrev Formula.Over (Q : VarId → Prop) (φ : Formula) : Prop := ∀ v ∈ φ.vars, Q v

namespace Formula

variable {Q : VarId → Prop}

theorem over_var {v : VarId} (h : Q v) : (var v).Over Q := by
  intro w hw
  rwa [List.mem_singleton.1 hw]

theorem over_operand {element : Option VarId} {x : Operand} (hx : Q x.var)
    (he : ∀ e ∈ element, Q e) : (operand element x).Over Q := by
  intro v hv
  unfold operand at hv
  split at hv
  · simp only [vars, List.mem_cons, List.not_mem_nil, or_false] at hv
    rcases hv with rfl | rfl
    · exact hx
    · exact he _ rfl
  · exact over_var hx v hv

theorem over_sourceIndex {site : Site} (h : Q site.index) (i : Nat) :
    (sourceIndex site i).Over Q := by
  have hscaled : ∀ stride, (scaledIndex site stride).Over Q := by
    intro stride v hv
    unfold scaledIndex at hv
    split at hv <;> simp_all [vars]
  unfold sourceIndex
  cases site.wiring with
  | affine stride =>
    simp only
    split
    · simp [Over, vars]
    · split
      · exact hscaled stride
      · simpa [Over, vars] using hscaled stride
  | table t =>
    simp only
    split <;> simpa [Over, vars] using h

end Formula

namespace Code

variable {site : Site} {done : List Operand} {n v : Nat} {l : Line}

theorem of_mem_writes_elementwise {value : Option VarId → Formula}
    (hl : (∃ op x, l.step = .unary op x) ∨ ∃ op x y, l.step = .binary op x y)
    (h : v ∈ allWrites (elementwise n l.extent value)) : n ≤ v ∧ v < n + l.locals.length := by
  obtain ⟨step, extent⟩ := l
  cases extent with
  | scalar s =>
    obtain rfl : v = n := by simpa [elementwise, allWrites, writes, Formula.target?] using h
    obtain ⟨op, x, rfl⟩ | ⟨op, x, y, rfl⟩ := hl <;> simp [Line.locals]
  | vector s len =>
    have hv : v = n ∨ v = n + 1 ∨ v = n := by
      simpa [elementwise, allWrites, writes, Formula.target?] using h
    obtain ⟨op, x, rfl⟩ | ⟨op, x, y, rfl⟩ := hl <;> rcases hv with rfl | rfl | rfl <;>
      simp [Line.locals]

theorem mem_writes_readInput {i : VarId} {position target : Formula} :
    v ∈ allWrites (readInput site i position target) ↔ v = i ∨ target.target? = some v := by
  simp [readInput, allWrites, writes, Formula.target?]

/-- A line writes only the variables that are declared for it. -/
theorem of_mem_writes_line (h : v ∈ allWrites (line site done n l)) :
    n ≤ v ∧ v < n + l.locals.length := by
  obtain ⟨step, extent⟩ := l
  cases step with
  | literal rank =>
    obtain rfl : v = n := by simpa [line, allWrites, writes, Formula.target?] using h
    exact ⟨Nat.le_refl v, Nat.lt_succ_self v⟩
  | unary op x =>
    simp only [line] at h
    exact of_mem_writes_elementwise (.inl ⟨op, x, rfl⟩) h
  | binary op x y =>
    simp only [line] at h
    exact of_mem_writes_elementwise (.inr ⟨op, x, y, rfl⟩) h
  | input =>
    cases extent with
    | scalar s =>
      rcases mem_writes_readInput.1 h with rfl | hv
      · simp [Line.locals]
      · obtain rfl := Option.some.inj hv
        simp [Line.locals]
    | vector s len =>
      simp only [Line.locals, List.length_cons, List.length_replicate]
      obtain ⟨c, hc, hv⟩ := mem_allWrites.1 h
      rcases List.mem_cons.1 hc with rfl | hc
      · obtain rfl : v = n := by simpa [writes] using hv
        omega
      · obtain ⟨i, hi, hc⟩ := List.mem_flatMap.1 hc
        rw [List.mem_range] at hi
        rcases mem_writes_readInput.1 (mem_allWrites.2 ⟨c, hc, hv⟩) with rfl | hv
        · omega
        · obtain rfl := Option.some.inj hv
          omega
  | reduce kind x =>
    have hv : v = n ∨ v = n + 1 ∨ v = n := by
      simpa [line, reduce, allWrites, writes, Formula.target?] using h
    rcases hv with rfl | rfl | rfl <;> simp [Line.locals]
  | activate name x =>
    obtain rfl : v = n := by simpa [line, allWrites, writes, Formula.target?] using h
    exact ⟨Nat.le_refl v, Nat.lt_succ_self v⟩

section

variable {Q : VarId → Prop}

theorem reads_elementwise (hlocal : ∀ i, Q (n + i)) {extent : Extent}
    {value : Option VarId → Formula}
    (hvalue : ∀ element, (∀ e ∈ element, Q e) → (value element).Over Q) :
    ∀ v ∈ allReads (elementwise n extent value), Q v := by
  cases extent with
  | scalar s =>
    simpa [elementwise, allReads, reads, Formula.indexVars] using hvalue none (by simp)
  | vector s len =>
    have hindex : ∀ e ∈ some (n + 1), Q e := by
      rintro _ ⟨⟩
      exact hlocal 1
    simp only [elementwise, allReads, reads, Formula.indexVars, Formula.vars, List.append_nil,
      List.nil_append, List.mem_append, List.mem_singleton]
    rintro v (hv | rfl)
    · exact hvalue _ hindex v hv
    · exact hlocal 1

theorem reads_readInput {i : VarId} {position target : Formula} (hinput : Q site.input) (hi : Q i)
    (hposition : position.Over Q) (htarget : ∀ v ∈ target.indexVars, Q v) :
    ∀ v ∈ allReads (readInput site i position target), Q v := by
  simp only [readInput, allReads, reads, Formula.indexVars, Formula.vars, List.append_nil,
    List.mem_append, List.mem_cons, List.not_mem_nil, or_false]
  rintro v (hv | (rfl | rfl) | hv)
  · exact hposition v hv
  · exact hinput
  · exact hi
  · exact htarget v hv

/-- What a line reads is in `Q`, if what it is given and what is declared for it is. -/
theorem reads_line (hinput : Q site.input) (hindex : Q site.index)
    (hdone : ∀ x, Q (done.getD x default).var) (hlocal : ∀ i, Q (n + i)) :
    ∀ v ∈ allReads (line site done n l), Q v := by
  obtain ⟨step, extent⟩ := l
  cases step with
  | literal rank =>
    simpa [line, allReads, reads, Formula.vars, Formula.indexVars] using hindex
  | unary op x =>
    simp only [line]
    exact reads_elementwise hlocal fun element he => Formula.over_operand (hdone x) he
  | binary op x y =>
    simp only [line]
    refine reads_elementwise hlocal fun element he v hv => ?_
    rcases List.mem_append.1 hv with hv | hv
    · exact Formula.over_operand (hdone x) he v hv
    · exact Formula.over_operand (hdone y) he v hv
  | input =>
    cases extent with
    | scalar s =>
      exact reads_readInput hinput (hlocal 1) (Formula.over_var hindex)
        (by simp [Formula.indexVars])
    | vector s len =>
      intro v hv
      obtain ⟨c, hc, hv⟩ := mem_allReads.1 hv
      rcases List.mem_cons.1 hc with rfl | hc
      · simp [reads] at hv
      · obtain ⟨i, _, hc⟩ := List.mem_flatMap.1 hc
        have hi : Q (n + 1 + i) := by
          rw [Nat.add_assoc]
          exact hlocal (1 + i)
        exact reads_readInput hinput hi (Formula.over_sourceIndex hindex i)
          (by simp [Formula.indexVars, Formula.vars]) v (mem_allReads.2 ⟨c, hc, hv⟩)
  | reduce kind x =>
    simp only [line, reduce, allReads, reads, Formula.indexVars, Formula.vars, List.append_nil,
      List.nil_append, List.mem_append, List.mem_singleton]
    rintro v (rfl | rfl | hv)
    · exact hdone x
    · exact hlocal 0
    · refine Formula.over_operand (hdone x) ?_ v hv
      rintro _ ⟨⟩
      exact hlocal 1
  | activate name x =>
    simpa [line, allReads, reads, Formula.vars, Formula.indexVars] using hdone x

end

end Code

namespace Recipe

theorem of_mem_writes_code {site : Site} {done : List Operand} {n v : Nat} {r : Recipe}
    (h : v ∈ Code.allWrites (r.code site done n)) : n ≤ v ∧ v < n + r.locals.length := by
  induction r generalizing done n with
  | nil => simp [code, Code.allWrites] at h
  | cons l rest ih =>
    obtain ⟨c, hc, hv⟩ := Code.mem_allWrites.1 h
    rw [locals, List.flatMap_cons, List.length_append, ← locals]
    rcases List.mem_append.1 hc with hc | hc
    · have := Code.of_mem_writes_line (Code.mem_allWrites.2 ⟨c, hc, hv⟩)
      omega
    · have := ih (Code.mem_allWrites.2 ⟨c, hc, hv⟩)
      omega

theorem le_var_operands {n : Nat} {r : Recipe} {x : Operand} (h : x ∈ r.operands n) :
    n ≤ x.var := by
  induction r generalizing n with
  | nil => cases h
  | cons l rest ih =>
    rcases List.mem_cons.1 h with rfl | h
    · exact Nat.le_refl n
    · exact (Nat.le_add_right _ _).trans (ih h)

section

variable {Q : VarId → Prop} {site : Site} {n : Nat}

theorem getD_var (hdefault : Q (default : Operand).var) {done : List Operand}
    (hdone : ∀ x ∈ done, Q x.var) (x : Nat) : Q (done.getD x default).var := by
  rw [List.getD_eq_getElem?_getD]
  cases hx : done[x]? with
  | none => exact hdefault
  | some y => exact hdone y (List.mem_of_getElem? hx)

theorem reads_code (hinput : Q site.input) (hindex : Q site.index)
    (hdefault : Q (default : Operand).var) (hlocal : ∀ i, Q (n + i)) (r : Recipe)
    {done : List Operand} (hdone : ∀ x ∈ done, Q x.var) :
    ∀ v ∈ Code.allReads (r.code site done n), Q v := by
  induction r generalizing done n with
  | nil => simp [code, Code.allReads]
  | cons l rest ih =>
    intro v hv
    obtain ⟨c, hc, hv⟩ := Code.mem_allReads.1 hv
    rcases List.mem_append.1 hc with hc | hc
    · exact Code.reads_line hinput hindex (getD_var hdefault hdone) hlocal v
        (Code.mem_allReads.2 ⟨c, hc, hv⟩)
    · refine ih (fun i => ?_) (fun x hx => ?_) v (Code.mem_allReads.2 ⟨c, hc, hv⟩)
      · rw [Nat.add_assoc]
        exact hlocal _
      · rcases List.mem_append.1 hx with hx | hx
        · exact hdone x hx
        · rw [List.mem_singleton.1 hx]
          exact hlocal 0

end

end Recipe

end Synapse
