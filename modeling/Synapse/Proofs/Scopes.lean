import Mathlib.Tactic
import Synapse.Kernel.Definitions
import Synapse.Proofs.CodeTypes

namespace Synapse

namespace Formula

/-- Reads only variables that are defined and tables that are there. -/
def Scoped (k : Kernel) (defined : List VarId) : Formula → Prop
  | literal _ => True
  | var v => v ∈ defined
  | element v i => v ∈ defined ∧ i.Scoped k defined
  | entry t i => t < k.tables.size ∧ i.Scoped k defined
  | unary _ x | activate _ x => x.Scoped k defined
  | binary _ l r => l.Scoped k defined ∧ r.Scoped k defined

/-- The variable that an assignment to the formula defines. -/
def target? : Formula → Option VarId
  | var v | element v _ => some v
  | _ => none

/-- Can be assigned to: the variable is declared, and an index is read that is in scope. -/
def Assignable (k : Kernel) (defined : List VarId) : Formula → Prop
  | var v => v < k.vars.size
  | element v i => v < k.vars.size ∧ i.Scoped k defined
  | _ => False

end Formula

namespace Code

/-- The variables that are defined from a statement on. -/
def binds : Code → List VarId
  | define v => [v]
  | assign lhs _ => lhs.target?.toList
  | loop _ _ _ _ => []

mutual

def Scoped (k : Kernel) (defined : List VarId) : Code → Prop
  | define v => v < k.vars.size
  | assign lhs rhs => rhs.Scoped k defined ∧ lhs.Assignable k defined
  | loop index start stop body => index < k.vars.size ∧ start.Scoped k defined ∧
    stop.Scoped k defined ∧ AllScoped k (index :: defined) body

def AllScoped (k : Kernel) (defined : List VarId) : List Code → Prop
  | [] => True
  | c :: rest => c.Scoped k defined ∧ AllScoped k (c.binds ++ defined) rest

end

/-- The variables that are defined after some statements. -/
def defines (defined : List VarId) : List Code → List VarId
  | [] => defined
  | c :: rest => defines (c.binds ++ defined) rest

end Code

section

variable {k : Kernel} {defined defined' : List VarId}

theorem Formula.Scoped.mono {φ : Formula} (h : φ.Scoped k defined) (hsub : defined ⊆ defined') :
    φ.Scoped k defined' := by
  induction φ with
  | literal c => trivial
  | var v => exact hsub h
  | element v i ih => exact ⟨hsub h.1, ih h.2⟩
  | entry t i ih => exact ⟨h.1, ih h.2⟩
  | unary op x ih => exact ih h
  | binary op l r ihl ihr => exact ⟨ihl h.1, ihr h.2⟩
  | activate name x ih => exact ih h

theorem Formula.Assignable.mono {φ : Formula} (h : φ.Assignable k defined)
    (hsub : defined ⊆ defined') : φ.Assignable k defined' := by
  cases φ with
  | var v => exact h
  | element v i => exact ⟨h.1, h.2.mono hsub⟩
  | _ => exact h.elim

namespace Code

mutual

theorem Scoped.mono {c : Code} {defined defined' : List VarId} (h : c.Scoped k defined)
    (hsub : defined ⊆ defined') : c.Scoped k defined' := by
  cases c with
  | define v => exact h
  | assign lhs rhs => exact ⟨h.1.mono hsub, h.2.mono hsub⟩
  | loop i a b body =>
    obtain ⟨hi, ha, hb, hbody⟩ := h
    exact ⟨hi, ha.mono hsub, hb.mono hsub, hbody.mono (List.cons_subset_cons i hsub)⟩

theorem AllScoped.mono {cs : List Code} {defined defined' : List VarId}
    (h : AllScoped k defined cs) (hsub : defined ⊆ defined') : AllScoped k defined' cs := by
  cases cs with
  | nil => trivial
  | cons c rest =>
    obtain ⟨hc, hrest⟩ := h
    have hsub' : c.binds ++ defined ⊆ c.binds ++ defined' :=
      List.append_subset.2 ⟨List.subset_append_left _ _, List.subset_append_of_subset_right _ hsub⟩
    exact ⟨hc.mono hsub, hrest.mono hsub'⟩

end

theorem mem_defines {cs : List Code} {v : VarId} :
    v ∈ defines defined cs ↔ v ∈ defined ∨ ∃ c ∈ cs, v ∈ c.binds := by
  induction cs generalizing defined with
  | nil => simp [defines]
  | cons c cs ih =>
    simp only [defines, ih, List.mem_append, List.mem_cons, exists_eq_or_imp]
    tauto

theorem subset_defines (defined : List VarId) (cs : List Code) : defined ⊆ defines defined cs :=
  fun _ hv => mem_defines.2 (.inl hv)

theorem defines_append (cs ds : List Code) :
    defines defined (cs ++ ds) = defines (defines defined cs) ds := by
  induction cs generalizing defined with
  | nil => rfl
  | cons c cs ih => exact ih

theorem allScoped_append {cs ds : List Code} :
    AllScoped k defined (cs ++ ds) ↔
      AllScoped k defined cs ∧ AllScoped k (defines defined cs) ds := by
  induction cs generalizing defined with
  | nil => simp [AllScoped, defines]
  | cons c cs ih => simp only [List.cons_append, AllScoped, defines, ih, and_assoc]

theorem allScoped_singleton {c : Code} : AllScoped k defined [c] ↔ c.Scoped k defined := by
  simp [AllScoped]

/-- Parts that need only what was defined before all of them may follow each other. -/
theorem allScoped_flatMap {α : Type} {xs : List α} {f : α → List Code}
    (h : ∀ x ∈ xs, AllScoped k defined (f x)) : AllScoped k defined (xs.flatMap f) := by
  induction xs with
  | nil => trivial
  | cons x xs ih =>
    rw [List.flatMap_cons, allScoped_append]
    have hrest := ih fun y hy => h y (List.mem_cons_of_mem _ hy)
    exact ⟨h x List.mem_cons_self, hrest.mono (subset_defines _ _)⟩

end Code

end

namespace Kernel

variable {k : Kernel} {defined : List VarId}

theorem scoped_operand {n : Node} {φ : Formula} (hφ : n.formula? (formulaOf k.arena.nodes) = some φ)
    (hs : φ.Scoped k defined) {x : NodeId} (hx : x ∈ n.operands) :
    ∃ ψ, formulaOf k.arena.nodes x = some ψ ∧ ψ.Scoped k defined := by
  cases n with
  | literal c => simp [Node.operands] at hx
  | input m => cases hφ
  | reduce kind y => cases hφ
  | var v => simp [Node.operands] at hx
  | binary op l r =>
    simp only [Node.formula?, Option.bind_eq_bind, Option.bind_eq_some_iff] at hφ
    obtain ⟨a, ha, b, hb, hab⟩ := hφ
    obtain rfl := Option.some.inj hab
    rcases List.mem_pair.1 hx with rfl | rfl
    · exact ⟨a, ha, hs.1⟩
    · exact ⟨b, hb, hs.2⟩
  | unary _ y | activate _ y =>
    obtain ⟨ψ, hψ, rfl⟩ := Option.map_eq_some_iff.1 hφ
    obtain rfl := List.mem_singleton.1 hx
    exact ⟨ψ, hψ, hs⟩
  | element _ y | entry _ y =>
    obtain ⟨ψ, hψ, rfl⟩ := Option.map_eq_some_iff.1 hφ
    obtain rfl := List.mem_singleton.1 hx
    exact ⟨ψ, hψ, hs.2⟩

/-- All that an expression in scope is built from is in scope. -/
theorem scoped_of_reaches {id x : NodeId} (hx : (Arena.dag k.arena.nodes).Reaches id x)
    {φ : Formula} (hφ : formulaOf k.arena.nodes id = some φ) (hs : φ.Scoped k defined) :
    ∃ ψ, formulaOf k.arena.nodes x = some ψ ∧ ψ.Scoped k defined := by
  induction hx with
  | refl => exact ⟨φ, hφ, hs⟩
  | @tail y z _ hz ih =>
    obtain ⟨ψ, hψ, hψs⟩ := ih
    obtain ⟨n, hn, _, hform⟩ := formulaOf_some hψ
    apply scoped_operand hform hψs
    have hz' : z ∈ Arena.operandsOf k.arena.nodes y := hz
    rw [Arena.operandsOf, hn] at hz'
    exact (List.mem_filter.1 hz').1

theorem definedAt_eq_ok {id : NodeId} {φ : Formula} (hφ : formulaOf k.arena.nodes id = some φ)
    (hs : φ.Scoped k defined) : k.definedAt defined id = .ok () := by
  obtain ⟨n, hn, _, hform⟩ := formulaOf_some hφ
  have hread : ∀ v, readOf n = some v → v ∈ defined := by
    intro v hv
    cases n with
    | var w =>
      obtain rfl := Option.some.inj hform
      obtain rfl := Option.some.inj hv
      exact hs
    | element w x =>
      obtain ⟨ψ, _, rfl⟩ := Option.map_eq_some_iff.1 hform
      obtain rfl := Option.some.inj hv
      exact hs.1
    | _ => cases hv
  unfold definedAt
  rw [hn, Option.bind_some]
  cases hv : readOf n with
  | none => rfl
  | some v => exact if_pos (hread v hv)

theorem readsDefined_eq_ok {id : NodeId} {φ : Formula} (hφ : formulaOf k.arena.nodes id = some φ)
    (hs : φ.Scoped k defined) : k.readsDefined defined id = .ok () := by
  apply forM_eq_ok.2
  intro x hx
  obtain ⟨ψ, hψ, hψs⟩ := scoped_of_reaches (Dag.mem_preorder.1 hx) hφ hs
  exact definedAt_eq_ok hψ hψs

theorem targetOf_eq_ok {id : NodeId} {φ : Formula} (hφ : formulaOf k.arena.nodes id = some φ)
    (hs : φ.Assignable k defined) :
    ∃ v, φ.target? = some v ∧ k.targetOf defined id = .ok v := by
  obtain ⟨n, hn, _, hform⟩ := formulaOf_some hφ
  unfold targetOf
  rw [hn]
  cases n with
  | var v =>
    obtain rfl := Option.some.inj hform
    exact ⟨v, rfl, rfl⟩
  | element v x =>
    obtain ⟨ψ, hψ, rfl⟩ := Option.map_eq_some_iff.1 hform
    refine ⟨v, rfl, ?_⟩
    simp only [readsDefined_eq_ok hψ hs.2]
    rfl
  | literal c =>
    obtain rfl := Option.some.inj hform
    exact hs.elim
  | input m => cases hform
  | reduce kind x => cases hform
  | binary op l r =>
    simp only [Node.formula?, Option.bind_eq_bind, Option.bind_eq_some_iff] at hform
    obtain ⟨a, _, b, _, hab⟩ := hform
    obtain rfl := Option.some.inj hab
    exact hs.elim
  | unary _ _ | activate _ _ | entry _ _ =>
    obtain ⟨ψ, _, rfl⟩ := Option.map_eq_some_iff.1 hform
    exact hs.elim

mutual

theorem defineStmt_eq_ok (s : Stmt) {c : Code} (h : s.code? k.arena.nodes = some c)
    {defined : List VarId} (hs : c.Scoped k defined) :
    k.defineStmt defined s = .ok (c.binds ++ defined) := by
  cases s with
  | define v =>
    obtain rfl : Code.define v = c := by simpa [Stmt.code?] using h
    rw [defineStmt]
    rfl
  | assign l r =>
    simp only [Stmt.code?, Option.bind_eq_bind, Option.bind_eq_some_iff] at h
    obtain ⟨φ, hφ, ψ, hψ, hc⟩ := h
    obtain rfl := Option.some.inj hc
    obtain ⟨v, hv, htarget⟩ := targetOf_eq_ok hφ hs.2
    rw [defineStmt, readsDefined_eq_ok hψ hs.1, htarget, Code.binds, hv]
    rfl
  | loop i a b body =>
    simp only [Stmt.code?, Option.bind_eq_bind, Option.bind_eq_some_iff] at h
    obtain ⟨φ, hφ, ψ, hψ, cs, hcs, hc⟩ := h
    obtain rfl := Option.some.inj hc
    obtain ⟨_, hstart, hstop, hbody⟩ := hs
    rw [defineStmt, readsDefined_eq_ok hφ hstart, readsDefined_eq_ok hψ hstop]
    have hinner := defineBody_eq_ok body hcs hbody
    simp only [bind, Except.bind, hinner]
    rfl

/-- In scoped code, each statement finds defined what it reads. -/
theorem defineBody_eq_ok (ss : List Stmt) {cs : List Code}
    (h : codesOf k.arena.nodes ss = some cs) {defined : List VarId}
    (hs : Code.AllScoped k defined cs) :
    k.defineBody defined ss = .ok (Code.defines defined cs) := by
  cases ss with
  | nil =>
    obtain rfl : [] = cs := by simpa [codesOf] using h
    rw [defineBody]
    rfl
  | cons s rest =>
    simp only [codesOf, Option.bind_eq_bind, Option.bind_eq_some_iff] at h
    obtain ⟨c, hc, cs', hcs', he⟩ := h
    obtain rfl := Option.some.inj he
    rw [defineBody, defineStmt_eq_ok s hc hs.1]
    exact defineBody_eq_ok rest hcs' hs.2

end

/-- A kernel whose code is scoped passes the check of definitions. -/
theorem checkDefinitions_eq_ok {cs : List Code} (h : codesOf k.arena.nodes k.body = some cs)
    (hs : Code.AllScoped k [inputVar] cs) : k.checkDefinitions = .ok () := by
  rw [checkDefinitions, defineBody_eq_ok k.body h hs]
  rfl

end Kernel

section

variable {k : Kernel} {defined : List VarId}

theorem Kernel.lt_of_env_table {i : TableId} {t : Ty} (h : k.env.table i = .ok t) :
    i < k.tables.size := by
  by_contra hge
  have hnone : k.tables[i]? = none := Array.getElem?_eq_none (Nat.le_of_not_lt hge)
  simp [Kernel.env, Kernel.table, hnone, Except.map] at h

theorem Formula.scoped_operand {x : Operand} {e : Option VarId} (hx : x.var ∈ defined)
    (he : ∀ i, e = some i → i ∈ defined) : (Formula.operand e x).Scoped k defined := by
  obtain ⟨v, extent⟩ := x
  cases e with
  | none => exact hx
  | some i =>
    cases extent with
    | scalar s => exact hx
    | vector s m => exact ⟨hx, he i rfl⟩

/-- Where the code of an ensemble runs, its index and its input are defined. -/
structure Site.Scoped (k : Kernel) (defined : List VarId) (site : Site) (literals : List Ty) :
    Prop where
  typed : site.Typed k.env literals
  index : site.index ∈ defined
  input : site.input ∈ defined

theorem Site.Scoped.mono {site : Site} {literals : List Ty} {defined' : List VarId}
    (h : site.Scoped k defined literals) (hsub : defined ⊆ defined') :
    site.Scoped k defined' literals :=
  ⟨h.typed, hsub h.index, hsub h.input⟩

theorem Site.Scoped.sourceIndex {site : Site} {literals : List Ty}
    (h : site.Scoped k defined literals) (i : Nat) :
    (Formula.sourceIndex site i).Scoped k defined := by
  have hindex : (Formula.var site.index).Scoped k defined := h.index
  unfold Formula.sourceIndex
  cases hw : site.wiring with
  | affine stride =>
    have hscaled : (Formula.scaledIndex site stride).Scoped k defined := by
      unfold Formula.scaledIndex
      split
      · exact hindex
      · exact ⟨trivial, hindex⟩
    simp only
    split
    · trivial
    · split
      · exact hscaled
      · exact ⟨trivial, hscaled⟩
  | table t =>
    have hentry : (Formula.entry t (.var site.index)).Scoped k defined :=
      ⟨Kernel.lt_of_env_table (h.typed.wiring t hw), hindex⟩
    simp only
    split
    · exact hentry
    · exact ⟨hentry, trivial⟩

namespace Code

theorem scoped_elementwise {n : Nat} {extent : Extent} {φ : Option VarId → Formula}
    (hn : n < k.vars.size) (hindex : ∀ s m, extent = .vector s m → n + 1 < k.vars.size)
    (hφ : ∀ e defined', defined ⊆ defined' → (∀ i, e = some i → i ∈ defined') →
      (φ e).Scoped k defined') :
    AllScoped k defined (elementwise n extent φ) ∧
      n ∈ defines defined (elementwise n extent φ) := by
  cases extent with
  | scalar s =>
    have hvalue := hφ none defined (List.Subset.refl _) (fun i hi => by cases hi)
    exact ⟨⟨⟨hvalue, hn⟩, trivial⟩, List.mem_cons_self⟩
  | vector s m =>
    have hi := hindex s m rfl
    have hvalue : (φ (some (n + 1))).Scoped k ((n + 1) :: n :: defined) := by
      apply hφ
      · exact List.subset_cons_of_subset _ (List.subset_cons_self _ _)
      · intro i hi
        obtain rfl := Option.some.inj hi
        exact List.mem_cons_self
    have hloop : (Code.loop (n + 1) (.int 0) (.int m)
        [.assign (.element n (.var (n + 1))) (φ (some (n + 1)))]).Scoped k (n :: defined) :=
      ⟨hi, trivial, trivial, ⟨hvalue, hn, List.mem_cons_self⟩, trivial⟩
    exact ⟨⟨hn, hloop, trivial⟩, List.mem_cons_self⟩

theorem scoped_readInput {site : Site} {literals : List Ty} (h : site.Scoped k defined literals)
    {i : VarId} {φ ψ : Formula} (hi : i < k.vars.size) (hφ : φ.Scoped k defined)
    (hψ : ψ.Assignable k defined) : AllScoped k defined (readInput site i φ ψ) := by
  have hread : (Formula.element site.input (.var i)).Scoped k (i :: defined) :=
    ⟨List.mem_cons_of_mem _ h.input, List.mem_cons_self⟩
  exact ⟨⟨hφ, hi⟩, ⟨hread, hψ.mono (List.subset_cons_self _ _)⟩, trivial⟩

theorem scoped_input {site : Site} {literals : List Ty} (h : site.Scoped k defined literals)
    {n : Nat} {extent : Extent}
    (hlocals : ∀ i, i < (Line.locals ⟨.input, extent⟩).length → n + i < k.vars.size) :
    AllScoped k defined (input site n extent) ∧ n ∈ defines defined (input site n extent) := by
  have hn : n < k.vars.size := hlocals 0 (by cases extent <;> simp [Line.locals])
  cases extent with
  | scalar s =>
    have hread := scoped_readInput h (ψ := .var n) (hlocals 1 (by simp [Line.locals]))
      (φ := .var site.index) h.index hn
    exact ⟨hread, List.mem_cons_self⟩
  | vector s m =>
    have hsite : site.Scoped k (n :: defined) literals := h.mono (List.subset_cons_self _ _)
    have hreads : AllScoped k (n :: defined) ((List.range m).flatMap fun i =>
        readInput site (n + 1 + i) (.sourceIndex site i) (.element n (.int i))) := by
      apply allScoped_flatMap
      intro i hi
      have hlt : n + 1 + i < k.vars.size := by
        have := hlocals (i + 1) (by simpa [Line.locals] using hi)
        omega
      exact scoped_readInput hsite hlt (hsite.sourceIndex i) ⟨hn, trivial⟩
    exact ⟨⟨hn, hreads⟩, subset_defines (n :: defined) _ List.mem_cons_self⟩

theorem scoped_reduce {n : Nat} {kind : Reduction} {x : Operand} (hn : n < k.vars.size)
    (hindex : n + 1 < k.vars.size) (hx : x.var ∈ defined) :
    AllScoped k defined (reduce n kind x) ∧ n ∈ defines defined (reduce n kind x) := by
  have hfirst : (Formula.element x.var (.int 0)).Scoped k defined := ⟨hx, trivial⟩
  have hoperand : (Formula.operand (some (n + 1)) x).Scoped k ((n + 1) :: n :: defined) := by
    apply Formula.scoped_operand
    · exact List.mem_cons_of_mem _ (List.mem_cons_of_mem _ hx)
    · intro i hi
      obtain rfl := Option.some.inj hi
      exact List.mem_cons_self
  have hacc : (Formula.var n).Scoped k ((n + 1) :: n :: defined) :=
    List.mem_cons_of_mem _ List.mem_cons_self
  exact ⟨⟨⟨hfirst, hn⟩, ⟨hindex, trivial, trivial, ⟨⟨hacc, hoperand⟩, hn⟩, trivial⟩, trivial⟩,
    List.mem_cons_self⟩

end Code

/-- An earlier step is found by its number. -/
theorem mem_of_extent {done : List Operand} {x : Nat} {extent : Extent}
    (hx : (done.map (·.extent))[x]? = some extent) : done.getD x default ∈ done := by
  rw [List.getElem?_map] at hx
  obtain ⟨o, ho, _⟩ := Option.map_eq_some_iff.1 hx
  rw [List.getD_eq_getElem?_getD, ho, Option.getD_some]
  exact List.mem_of_getElem? ho

/-- The code of a step is scoped where its operands are defined, and defines its result. -/
theorem scoped_line {site : Site} {literals : List Ty} (h : site.Scoped k defined literals)
    {n : Nat} {done : List Operand} {l : Line} {ty : Ty} (hdone : ∀ x ∈ done, x.var ∈ defined)
    (hlocals : ∀ i, i < l.locals.length → n + i < k.vars.size)
    (htyped : l.Typed literals ty (done.map (·.extent))) :
    Code.AllScoped k defined (Code.line site done n l) ∧
      n ∈ Code.defines defined (Code.line site done n l) := by
  obtain ⟨step, extent⟩ := l
  have hn : n < k.vars.size :=
    hlocals 0 (List.getElem?_eq_some_iff.1 (Line.locals_zero ⟨step, extent⟩)).1
  cases step with
  | literal rank =>
    have htable := Kernel.lt_of_env_table (h.typed.literals rank extent.ty htyped)
    exact ⟨⟨⟨⟨htable, h.index⟩, hn⟩, trivial⟩, List.mem_cons_self⟩
  | unary op x =>
    have hx := hdone _ (mem_of_extent htyped)
    apply Code.scoped_elementwise (φ := fun e => .unary op (.operand e (done.getD x default))) hn
    · rintro s m rfl
      exact hlocals 1 (by simp [Line.locals])
    · intro e defined' hsub he
      exact Formula.scoped_operand (hsub hx) he
  | binary op x y =>
    obtain ⟨a, b, ha, hb, _⟩ := htyped
    have hx := hdone _ (mem_of_extent ha)
    have hy := hdone _ (mem_of_extent hb)
    apply Code.scoped_elementwise (φ := fun e => .binary op (.operand e (done.getD x default))
      (.operand e (done.getD y default))) hn
    · rintro s m rfl
      exact hlocals 1 (by simp [Line.locals])
    · intro e defined' hsub he
      exact ⟨Formula.scoped_operand (hsub hx) he, Formula.scoped_operand (hsub hy) he⟩
  | input => exact Code.scoped_input h hlocals
  | reduce kind x =>
    obtain ⟨s, m, hx, _⟩ := htyped
    exact Code.scoped_reduce hn (hlocals 1 (by simp [Line.locals])) (hdone _ (mem_of_extent hx))
  | activate name x =>
    obtain ⟨s, hx, _⟩ := htyped
    exact ⟨⟨⟨hdone _ (mem_of_extent hx), hn⟩, trivial⟩, List.mem_cons_self⟩

/-- The code of a recipe defines the results of all its steps. -/
theorem scoped_recipe {site : Site} {literals : List Ty} {ty : Ty} (rest : Recipe) {n : Nat}
    {done : List Operand} {defined : List VarId} (h : site.Scoped k defined literals)
    (hdone : ∀ x ∈ done, x.var ∈ defined)
    (hlocals : ∀ i, i < rest.locals.length → n + i < k.vars.size)
    (htyped : rest.Typed literals ty (done.map (·.extent))) :
    Code.AllScoped k defined (rest.code site done n) ∧
      ∀ x ∈ done ++ rest.operands n, x.var ∈ Code.defines defined (rest.code site done n) := by
  induction rest generalizing n done defined with
  | nil => exact ⟨trivial, by simpa [Recipe.operands, Recipe.code, Code.defines] using hdone⟩
  | cons l rest ih =>
    obtain ⟨hl, hrest⟩ := htyped
    have hlen : (Recipe.locals (l :: rest)).length =
        l.locals.length + (Recipe.locals rest).length := by
      simp [Recipe.locals]
    obtain ⟨hline, hresult⟩ := scoped_line h hdone (fun i hi => hlocals i (by omega)) hl
    have hsub := Code.subset_defines defined (Code.line site done n l)
    have hdone' : ∀ x ∈ done ++ [⟨n, l.extent⟩],
        x.var ∈ Code.defines defined (Code.line site done n l) := by
      intro x hx
      rcases List.mem_append.1 hx with hx | hx
      · exact hsub (hdone x hx)
      · rw [List.mem_singleton.1 hx]
        exact hresult
    have hbelow := ih (n := n + l.locals.length) (h.mono hsub) hdone' (fun i hi => by
      have := hlocals (l.locals.length + i) (by omega)
      omega) (by simpa using hrest)
    rw [Recipe.code, Code.allScoped_append, Code.defines_append, Recipe.operands]
    exact ⟨⟨hline, hbelow.1⟩, by simpa using hbelow.2⟩

/-- The loop of an ensemble is scoped where its input is defined. -/
theorem scoped_ensemble {e : Ensemble} {site : VarId → Site} {r : Recipe} {n output : Nat}
    {literals : List Ty} {ty : Ty} (h : (site n).Typed k.env literals) (hindex : (site n).index = n)
    (hinput : (site n).input ∈ defined) (hn : n < k.vars.size)
    (hlocals : ∀ i, i < r.locals.length → n + 1 + i < k.vars.size) (hr : r ≠ [])
    (htyped : r.Typed literals ty []) (houtput : output < k.vars.size) :
    (Code.ensemble e site r output n).Scoped k defined := by
  have hsite : (site n).Scoped k (n :: defined) literals :=
    ⟨h, List.mem_cons.2 (.inl hindex), List.mem_cons_of_mem _ hinput⟩
  obtain ⟨hcode, hresults⟩ := scoped_recipe r hsite (List.forall_mem_nil _) hlocals htyped
  have hlast : (r.operands (n + 1)).getLastD default ∈ r.operands (n + 1) := by
    have hne : r.operands (n + 1) ≠ [] := by
      cases r with
      | nil => exact absurd rfl hr
      | cons l rest => exact List.cons_ne_nil _ _
    rw [List.getLastD_eq_getLast?, List.getLast?_eq_some_getLast hne, Option.getD_some]
    exact List.getLast_mem hne
  refine ⟨hn, trivial, trivial, Code.allScoped_append.2 ⟨hcode, Code.allScoped_singleton.2 ?_⟩⟩
  exact ⟨hresults _ (by simpa using hlast), houtput, Code.subset_defines _ _ List.mem_cons_self⟩

end

end Synapse