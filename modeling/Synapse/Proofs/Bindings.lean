import Mathlib.Tactic
import Synapse.Proofs.Footprints
import Synapse.Proofs.Sharing

namespace Synapse

/-- A statement that binds a variable, with the indices of the loops around it, the outer one
first. -/
structure Binding where
  scope : List VarId
  code : Code

namespace Code

mutual

/-- The statements that define or assign `v` or run over it, in the order of the text. -/
def bindings (v : VarId) (scope : List VarId) : Code → List Binding
  | define w => if w = v then [⟨scope, define w⟩] else []
  | assign lhs rhs => if lhs.target? = some v then [⟨scope, assign lhs rhs⟩] else []
  | loop index start stop body =>
    (if index = v then [⟨scope, loop index start stop body⟩] else []) ++
      allBindings v (scope ++ [index]) body

def allBindings (v : VarId) (scope : List VarId) : List Code → List Binding
  | [] => []
  | c :: rest => c.bindings v scope ++ allBindings v scope rest

end

variable {v : VarId} {scope : List VarId} {cs ds : List Code}

theorem allBindings_append (v : VarId) (scope : List VarId) (cs ds : List Code) :
    allBindings v scope (cs ++ ds) = allBindings v scope cs ++ allBindings v scope ds := by
  induction cs with
  | nil => rw [allBindings, List.nil_append, List.nil_append]
  | cons c cs ih => rw [List.cons_append, allBindings, allBindings, ih, List.append_assoc]

theorem mem_allBindings {b : Binding} :
    b ∈ allBindings v scope cs ↔ ∃ c ∈ cs, b ∈ c.bindings v scope := by
  induction cs with
  | nil => simp [allBindings]
  | cons c cs ih => simp [allBindings, ih]

mutual

theorem bindings_eq_nil : ∀ (c : Code) (scope : List VarId), v ∉ c.writes → c.bindings v scope = []
  | define w, scope, h => by
    have hne : w ≠ v := by simpa [writes, eq_comm] using h
    rw [bindings, if_neg hne]
  | assign lhs rhs, scope, h => by
    have hne : lhs.target? ≠ some v := by simpa [writes] using h
    rw [bindings, if_neg hne]
  | loop index start stop body, scope, h => by
    have hne : ¬index = v ∧ v ∉ allWrites body := by simpa [writes, eq_comm] using h
    rw [bindings, if_neg hne.1, allBindings_eq_nil body _ hne.2, List.nil_append]

theorem allBindings_eq_nil :
    ∀ (cs : List Code) (scope : List VarId), v ∉ allWrites cs → allBindings v scope cs = []
  | [], _, _ => by rw [allBindings]
  | c :: cs, scope, h => by
    have hboth : v ∉ c.writes ∧ v ∉ allWrites cs := by simpa [allWrites] using h
    rw [allBindings, bindings_eq_nil c scope hboth.1, allBindings_eq_nil cs scope hboth.2,
      List.nil_append]

end

theorem allBindings_left (h : v ∉ allWrites ds) :
    allBindings v scope (cs ++ ds) = allBindings v scope cs := by
  rw [allBindings_append, allBindings_eq_nil ds scope h, List.append_nil]

theorem allBindings_right (h : v ∉ allWrites cs) :
    allBindings v scope (cs ++ ds) = allBindings v scope ds := by
  rw [allBindings_append, allBindings_eq_nil cs scope h, List.nil_append]

theorem mem_allWrites_of_bindings (h : allBindings v scope cs ≠ []) : v ∈ allWrites cs := by
  by_contra hv
  exact h (allBindings_eq_nil cs scope hv)

end Code

/-- Fills a vector in: defines it, or assigns to one of its elements. -/
def Binding.Fills (b : Binding) (v : VarId) : Prop :=
  b.code = .define v ∨ ∃ index rhs, b.code = .assign (.element v index) rhs

/-- Assigns to a variable what is computed from it. -/
def Binding.folds (b : Binding) (v : VarId) : Bool :=
  match b.code with
  | .assign (.var w) rhs => w = v ∧ v ∈ rhs.vars
  | _ => false

theorem Binding.not_fills_of_folds {b : Binding} {v : VarId} (h : b.folds v = true) :
    ¬b.Fills v := by
  obtain ⟨scope, code⟩ := b
  rintro (rfl | ⟨index, rhs, rfl⟩)
  · simp [folds] at h
  · simp [folds] at h

/-- Whether a variable reads itself in one of its bindings. -/
def accumulates (f : VarId → List Binding) (v : VarId) : Bool := (f v).any (·.folds v)

section

variable {f g : VarId → List Binding} {v : VarId} {op : Binary} {role : Role} {ty : Ty}

/-- Where `f` gives the bindings of each variable: `v` is assigned twice, a seed and what a loop
folds into it. That is all that the loop does. -/
inductive Folded (f : VarId → List Binding) (op : Binary) (v : VarId) : Prop
  | intro {scope : List VarId} {index : VarId} {start stop seed next : Formula}
      (hv : f v = [⟨scope, .assign (.var v) seed⟩,
        ⟨scope ++ [index], .assign (.var v) (.binary op (.var v) next)⟩])
      (hindex : f index =
        [⟨scope, .loop index start stop [.assign (.var v) (.binary op (.var v) next)]⟩])

/-- How a variable is bound that has a given role and type. -/
inductive Bound (f : VarId → List Binding) (v : VarId) : Role → Ty → Prop
  | index {scope : List VarId} {start stop : Formula} {body : List Code} {ty : Ty}
      (h : f v = [⟨scope, .loop v start stop body⟩]) : Bound f v .index ty
  | once {scope : List VarId} {rhs : Formula} {ty : Ty}
      (h : f v = [⟨scope, .assign (.var v) rhs⟩]) (hrhs : v ∉ rhs.vars) : Bound f v .temporary ty
  | filled {s : Scalar} {len : Option Nat} (hne : f v ≠ []) (h : ∀ b ∈ f v, b.Fills v) :
      Bound f v .temporary (.vector s len)
  | accumulator {op : Binary} {ty : Ty} (h : Folded f op v) : Bound f v .accumulator ty

theorem Folded.lift (h : Folded f op v) (hfg : ∀ w, f w ≠ [] → g w = f w) : Folded g op v := by
  obtain ⟨hv, hindex⟩ := h
  have hsame : g v = f v := hfg v (by simp [hv])
  have hloop := hfg _ (ne_of_eq_of_ne hindex (List.cons_ne_nil _ _))
  exact .intro (hsame.trans hv) (hloop.trans hindex)

theorem Bound.lift (h : Bound f v role ty) (hfg : ∀ w, f w ≠ [] → g w = f w) :
    Bound g v role ty := by
  cases h with
  | index h => exact .index ((hfg v (by simp [h])).trans h)
  | once h hrhs => exact .once ((hfg v (by simp [h])).trans h) hrhs
  | filled hne h =>
    have hsame := hfg v hne
    exact .filled (by rwa [hsame]) (by rwa [hsame])
  | accumulator h => exact .accumulator (h.lift hfg)

/-- Only what a reduction is folded into reads itself. -/
theorem Bound.accumulates_iff (h : Bound f v role ty) :
    accumulates f v = true ↔ role = .accumulator := by
  cases h with
  | index h => simp [accumulates, h, Binding.folds]
  | once h hrhs => simp [accumulates, h, Binding.folds, hrhs]
  | filled hne h =>
    simp only [accumulates, List.any_eq_true, reduceCtorEq, iff_false, not_exists, not_and]
    exact fun b hb hfolds => Binding.not_fills_of_folds hfolds (h b hb)
  | accumulator h =>
    obtain ⟨hv, _⟩ := h
    simp [accumulates, hv, Binding.folds, Formula.vars]

theorem Bound.role_of_loop (h : Bound f v role ty) {scope : List VarId} {start stop : Formula}
    {body : List Code} (hb : ⟨scope, .loop v start stop body⟩ ∈ f v) : role = .index := by
  cases h with
  | index _ => rfl
  | once h _ => simp [h] at hb
  | filled _ h => simpa [Binding.Fills] using h _ hb
  | accumulator h =>
    obtain ⟨hv, _⟩ := h
    simp [hv] at hb

theorem Bound.eq_loop (h : Bound f v .index ty) :
    ∃ scope start stop body, f v = [⟨scope, .loop v start stop body⟩] := by
  cases h with
  | index h => exact ⟨_, _, _, _, h⟩

theorem Bound.eq_assign (h : Bound f v .temporary ty) (hty : ty.isVector = false) :
    ∃ scope rhs, f v = [⟨scope, .assign (.var v) rhs⟩] := by
  cases h with
  | once h _ => exact ⟨_, _, h⟩
  | filled _ _ => cases hty

theorem Bound.folded (h : Bound f v .accumulator ty) : ∃ op, Folded f op v := by
  cases h with
  | accumulator h => exact ⟨_, h⟩

end

/-- Variables that follow one another, from number `n` on, are bound as their roles and types ask
for. -/
inductive BindsAll (f : VarId → List Binding) : VarId → List Role → List Ty → Prop
  | nil (n : VarId) : BindsAll f n [] []
  | cons {n : VarId} {role : Role} {ty : Ty} {roles : List Role} {tys : List Ty}
      (h : Bound f n role ty) (hrest : BindsAll f (n + 1) roles tys) :
      BindsAll f n (role :: roles) (ty :: tys)

namespace BindsAll

variable {f g : VarId → List Binding} {n : Nat} {roles roles' : List Role} {tys tys' : List Ty}

theorem lift (h : BindsAll f n roles tys) (hfg : ∀ w, f w ≠ [] → g w = f w) :
    BindsAll g n roles tys := by
  induction h with
  | nil n => exact .nil n
  | cons h _ ih => exact .cons (h.lift hfg) ih

theorem append (h : BindsAll f n roles tys) (h' : BindsAll f (n + tys.length) roles' tys') :
    BindsAll f n (roles ++ roles') (tys ++ tys') := by
  induction h with
  | nil n => exact h'
  | @cons n role ty roles tys h _ ih =>
    refine .cons h (ih ?_)
    rwa [Nat.add_right_comm, Nat.add_assoc, ← List.length_cons]

theorem replicate {role : Role} {ty : Ty} {len : Nat}
    (h : ∀ i < len, Bound f (n + i) role ty) :
    BindsAll f n (List.replicate len role) (List.replicate len ty) := by
  induction len generalizing n with
  | zero => exact .nil n
  | succ len ih =>
    refine .cons (h 0 (Nat.zero_lt_succ len)) (ih fun i hi => ?_)
    rw [Nat.add_right_comm, Nat.add_assoc]
    exact h (i + 1) (Nat.succ_lt_succ hi)

theorem bound (h : BindsAll f n roles tys) {j : Nat} {role : Role} {ty : Ty}
    (hrole : roles[j]? = some role) (hty : tys[j]? = some ty) : Bound f (n + j) role ty := by
  induction h generalizing j with
  | nil n => simp at hrole
  | @cons n _ _ _ _ h _ ih =>
    cases j with
    | zero =>
      obtain rfl := Option.some.inj hrole
      obtain rfl := Option.some.inj hty
      exact h
    | succ j =>
      rw [Nat.add_comm j, ← Nat.add_assoc]
      exact ih hrole hty

end BindsAll

namespace Code

variable {site : Site} {done : List Operand} {n : Nat} {l : Line}

theorem bindsAll_elementwise {value : Option VarId → Formula}
    (hl : (∃ op x, l.step = .unary op x) ∨ ∃ op x y, l.step = .binary op x y)
    (hvalue : n ∉ (value none).vars) (scope : List VarId) :
    BindsAll (fun v => allBindings v scope (elementwise n l.extent value)) n l.roles l.locals := by
  obtain ⟨step, extent⟩ := l
  cases extent with
  | scalar s =>
    have hbindings : allBindings n scope (elementwise n (.scalar s) value) =
        [⟨scope, .assign (.var n) (value none)⟩] := by
      simp [elementwise, allBindings, bindings, Formula.target?]
    obtain ⟨op, x, rfl⟩ | ⟨op, x, y, rfl⟩ := hl
    · exact .cons (.once hbindings hvalue) (.nil _)
    · exact .cons (.once hbindings hvalue) (.nil _)
  | vector s len =>
    have hbindings : allBindings n scope (elementwise n (.vector s len) value) =
        [⟨scope, .define n⟩,
          ⟨scope ++ [n + 1], .assign (.element n (.var (n + 1))) (value (some (n + 1)))⟩] := by
      simp [elementwise, allBindings, bindings, Formula.target?]
    have hindex : allBindings (n + 1) scope (elementwise n (.vector s len) value) =
        [⟨scope, .loop (n + 1) (Formula.int 0) (Formula.int len)
          [.assign (.element n (.var (n + 1))) (value (some (n + 1)))]⟩] := by
      simp [elementwise, allBindings, bindings, Formula.target?]
    have hfilled : Bound (fun v => allBindings v scope (elementwise n (.vector s len) value)) n
        .temporary (.vector s (some len)) :=
      .filled (by simp [hbindings]) (by simp [hbindings, Binding.Fills])
    obtain ⟨op, x, rfl⟩ | ⟨op, x, y, rfl⟩ := hl
    · exact .cons hfilled (.cons (.index hindex) (.nil _))
    · exact .cons hfilled (.cons (.index hindex) (.nil _))

theorem allBindings_flatMap {α : Type} (v : VarId) (scope : List VarId) (xs : List α)
    (code : α → List Code) :
    allBindings v scope (xs.flatMap code) = xs.flatMap fun x => allBindings v scope (code x) := by
  induction xs with
  | nil => rw [List.flatMap_nil, allBindings, List.flatMap_nil]
  | cons x xs ih => rw [List.flatMap_cons, allBindings_append, ih, List.flatMap_cons]

/-- The position of each input has a temporary of its own. -/
theorem allBindings_positions {position : Nat → Formula} {len i : Nat} (hi : i < len)
    (scope : List VarId) :
    allBindings (n + 1 + i) scope ((List.range len).flatMap fun k =>
      readInput site (n + 1 + k) (position k) (.element n (.int k))) =
        [⟨scope, .assign (.var (n + 1 + i)) (position i)⟩] := by
  have hread : ∀ k, allBindings (n + 1 + i) scope
      (readInput site (n + 1 + k) (position k) (.element n (.int k))) =
        if k = i then [⟨scope, .assign (.var (n + 1 + i)) (position i)⟩] else [] := by
    intro k
    have hne : n ≠ n + 1 + i := by omega
    by_cases hk : k = i
    · simp [readInput, allBindings, bindings, Formula.target?, hk, hne]
    · simp [readInput, allBindings, bindings, Formula.target?, hk, hne]
  rw [allBindings_flatMap]
  simp only [hread]
  induction len with
  | zero => cases hi
  | succ len ih =>
    rw [List.range_succ, List.flatMap_append, List.flatMap_singleton]
    by_cases hlen : len = i
    · subst hlen
      rw [if_pos rfl, List.flatMap_eq_nil_iff.2, List.nil_append]
      intro k hk
      exact if_neg (Nat.ne_of_lt (List.mem_range.1 hk))
    · rw [ih (by omega), if_neg hlen, List.append_nil]

theorem bindsAll_input (hinput : site.input < n) (hindex : site.index < n) (extent : Extent)
    (scope : List VarId) :
    BindsAll (fun v => allBindings v scope (input site n extent)) n
      (Line.roles ⟨.input, extent⟩) (Line.locals ⟨.input, extent⟩) := by
  cases extent with
  | scalar s =>
    have hvalue : allBindings n scope (input site n (.scalar s)) =
        [⟨scope, .assign (.var n) (.element site.input (.var (n + 1)))⟩] := by
      simp [input, readInput, allBindings, bindings, Formula.target?]
    have hposition : allBindings (n + 1) scope (input site n (.scalar s)) =
        [⟨scope, .assign (.var (n + 1)) (.var site.index)⟩] := by
      simp [input, readInput, allBindings, bindings, Formula.target?]
    refine .cons (.once hvalue ?_) (.cons (.once hposition ?_) (.nil _))
    · simp [Formula.vars, hinput.ne']
    · rw [Formula.vars, List.mem_singleton]
      exact Nat.ne_of_gt (Nat.lt_succ_of_lt hindex)
  | vector s len =>
    refine .cons (.filled ?_ ?_) (.replicate fun i hi => ?_)
    · simp [input, allBindings, bindings]
    · intro b hb
      obtain ⟨c, hc, hb⟩ := mem_allBindings.1 hb
      rcases List.mem_cons.1 hc with rfl | hc
      · simp [bindings] at hb
        simp [hb, Binding.Fills]
      · obtain ⟨i, _, hc⟩ := List.mem_flatMap.1 hc
        simp only [readInput, List.mem_cons, List.not_mem_nil, or_false] at hc
        have hne : n + 1 + i ≠ n := by omega
        rcases hc with rfl | rfl
        · simp [bindings, Formula.target?, hne] at hb
        · simp [bindings, Formula.target?] at hb
          simp [hb, Binding.Fills]
    · have hposition : allBindings (n + 1 + i) scope (input site n (.vector s len)) =
          [⟨scope, .assign (.var (n + 1 + i)) (.sourceIndex site i)⟩] := by
        have hne : n ≠ n + 1 + i := by omega
        rw [input, allBindings, allBindings_positions hi, bindings, if_neg hne, List.nil_append]
      refine .once hposition fun hmem => ?_
      have hlt : n + 1 + i < n := Formula.over_sourceIndex (Q := (· < n)) hindex i _ hmem
      omega

theorem allBindings_reduce (n : Nat) (kind : Reduction) (x : Operand) (scope : List VarId) :
    allBindings n scope (reduce n kind x) =
      [⟨scope, .assign (.var n) (.element x.var (.int 0))⟩, ⟨scope ++ [n + 1], .assign (.var n)
        (.binary kind.operator (.var n) (.operand (some (n + 1)) x))⟩] ∧
    allBindings (n + 1) scope (reduce n kind x) =
      [⟨scope, .loop (n + 1) (.int 1) (.int x.extent.len) [.assign (.var n)
        (.binary kind.operator (.var n) (.operand (some (n + 1)) x))]⟩] := by
  simp [reduce, allBindings, bindings, Formula.target?]

theorem folded_reduce (n : Nat) (kind : Reduction) (x : Operand) (scope : List VarId) :
    Folded (fun v => allBindings v scope (reduce n kind x)) kind.operator n :=
  .intro (allBindings_reduce n kind x scope).1 (allBindings_reduce n kind x scope).2

/-- The variables of a step are bound by its code, each as its role asks for. -/
theorem bindsAll_line (hinput : site.input < n) (hindex : site.index < n)
    (hdone : ∀ x, (done.getD x default).var < n) (l : Line) (scope : List VarId) :
    BindsAll (fun v => allBindings v scope (line site done n l)) n l.roles l.locals := by
  have hoperand : ∀ x, n ∉ (Formula.operand none (done.getD x default)).vars := by
    intro x hmem
    exact Nat.lt_irrefl n (Formula.over_operand (Q := (· < n)) (hdone x) (by simp) n hmem)
  obtain ⟨step, extent⟩ := l
  cases step with
  | literal rank =>
    have hbindings : allBindings n scope (line site done n ⟨.literal rank, extent⟩) =
        [⟨scope, .assign (.var n) (.entry (site.firstTable + rank) (.var site.index))⟩] := by
      simp [line, allBindings, bindings, Formula.target?]
    exact .cons (.once hbindings (by simp [Formula.vars, hindex.ne'])) (.nil _)
  | unary op x =>
    simp only [line]
    exact bindsAll_elementwise (l := ⟨.unary op x, extent⟩) (.inl ⟨op, x, rfl⟩) (hoperand x) scope
  | binary op x y =>
    simp only [line]
    refine bindsAll_elementwise (l := ⟨.binary op x y, extent⟩) (.inr ⟨op, x, y, rfl⟩) ?_ scope
    rw [Formula.vars, List.mem_append, not_or]
    exact ⟨hoperand x, hoperand y⟩
  | input => exact bindsAll_input hinput hindex extent scope
  | reduce kind x =>
    exact .cons (.accumulator (folded_reduce n kind _ scope))
      (.cons (.index (allBindings_reduce n kind _ scope).2) (.nil _))
  | activate name x =>
    have hbindings : allBindings n scope (line site done n ⟨.activate name x, extent⟩) =
        [⟨scope, .assign (.var n) (.activate name (.var (done.getD x default).var))⟩] := by
      simp [line, allBindings, bindings, Formula.target?]
    refine .cons (.once hbindings ?_) (.nil _)
    rw [Formula.vars, Formula.vars, List.mem_singleton]
    exact (hdone x).ne'

end Code

namespace Recipe

variable {site : Site} {done : List Operand} {n v : Nat} {l : Line} {r : Recipe}
  {scope : List VarId}

theorem allBindings_line (hv : v < n + l.locals.length) :
    Code.allBindings v scope (Recipe.code site done n (l :: r)) =
      Code.allBindings v scope (Code.line site done n l) := by
  rw [code]
  refine Code.allBindings_left fun hmem => ?_
  have hle := (of_mem_writes_code hmem).1
  omega

theorem allBindings_rest (hv : n + l.locals.length ≤ v) :
    Code.allBindings v scope (Recipe.code site done n (l :: r)) =
      Code.allBindings v scope
        (r.code site (done ++ [⟨n, l.extent⟩]) (n + l.locals.length)) := by
  rw [code]
  refine Code.allBindings_right fun hmem => ?_
  have hlt := (Code.of_mem_writes_line hmem).2
  omega

theorem lt_of_mem_done (hdone : ∀ x ∈ done, x.var < n) :
    ∀ x ∈ done ++ [⟨n, l.extent⟩], x.var < n + l.locals.length := by
  have hpos : 0 < l.locals.length := by
    have := l.locals_zero
    grind
  intro x hx
  rcases List.mem_append.1 hx with hx | hx
  · exact (hdone x hx).trans_le (Nat.le_add_right n _)
  · rw [List.mem_singleton.1 hx]
    exact Nat.lt_add_of_pos_right hpos

/-- The variables of a recipe are bound by the code of their steps. -/
theorem bindsAll_code (hinput : site.input < n) (hindex : site.index < n)
    (hdone : ∀ x ∈ done, x.var < n) (r : Recipe) (scope : List VarId) :
    BindsAll (fun v => Code.allBindings v scope (r.code site done n)) n r.roles r.locals := by
  induction r generalizing done n with
  | nil => exact .nil n
  | cons l rest ih =>
    have hle : n ≤ n + l.locals.length := Nat.le_add_right n _
    have hline := Code.bindsAll_line hinput hindex
      (getD_var (Q := (· < n)) (Nat.zero_lt_of_lt hindex) hdone) l scope
    have hrest := ih (hinput.trans_le hle) (hindex.trans_le hle) (lt_of_mem_done (l := l) hdone)
    refine (hline.lift fun w hw => ?_).append (hrest.lift fun w hw => ?_)
    · have hlt := (Code.of_mem_writes_line (Code.mem_allWrites_of_bindings hw)).2
      exact allBindings_line hlt
    · have hle := (of_mem_writes_code (Code.mem_allWrites_of_bindings hw)).1
      exact allBindings_rest hle

end Recipe

namespace Network

variable {net : Network} {f g : VarId → List Binding}

def isReduction (net : Network) (id : NodeId) : Bool :=
  match net.arena.nodes[id]? with
  | some (.reduce _ _) => true
  | _ => false

/-- The node `id` is a reduction, and `v` is what it is folded into. -/
def FoldsInto (net : Network) (f : VarId → List Binding) (id : NodeId) (v : VarId) : Prop :=
  ∃ kind x, net.arena.nodes[id]? = some (.reduce kind x) ∧ Folded f kind.operator v

/-- The variables among `vs` that read themselves belong to the reductions among `ids`, one to
each. -/
def Reduces (net : Network) (f : VarId → List Binding) (ids : List NodeId) (vs : List VarId) :
    Prop :=
  List.Forall₂ (net.FoldsInto f) (ids.filter net.isReduction) (vs.filter (accumulates f))

namespace Reduces

variable {ids ids' : List NodeId} {vs vs' : List VarId}

theorem lift (h : net.Reduces f ids vs) (hvs : ∀ w ∈ vs, g w = f w)
    (hfg : ∀ w, f w ≠ [] → g w = f w) : net.Reduces g ids vs := by
  have hfilter : vs.filter (accumulates g) = vs.filter (accumulates f) := by
    refine List.filter_congr fun w hw => ?_
    rw [accumulates, accumulates, hvs w hw]
  rw [Reduces, hfilter]
  refine h.imp fun id v hv => ?_
  obtain ⟨kind, x, hnode, hfolded⟩ := hv
  exact ⟨kind, x, hnode, hfolded.lift hfg⟩

theorem append (h : net.Reduces f ids vs) (h' : net.Reduces f ids' vs') :
    net.Reduces f (ids ++ ids') (vs ++ vs') := by
  rw [Reduces, List.filter_append, List.filter_append]
  exact List.rel_append h h'

end Reduces

end Network

theorem BindsAll.filter_accumulates {f : VarId → List Binding} {n : Nat} {roles : List Role}
    {tys : List Ty} (h : BindsAll f n roles tys) (hroles : .accumulator ∉ roles) :
    (List.range' n tys.length).filter (accumulates f) = [] := by
  induction h with
  | nil n => rfl
  | @cons n role ty roles tys h _ ih =>
    rw [List.mem_cons, not_or] at hroles
    have hfirst : ¬accumulates f n = true := fun hacc => hroles.1 (h.accumulates_iff.1 hacc).symm
    rw [List.length_cons, List.range'_succ, List.filter_cons_of_neg hfirst]
    exact ih hroles.2

section

variable {net : Network} {root id : NodeId} {l : Line}

/-- What the code of a step folds into, if its node is a reduction. -/
theorem LineOf.reduces (h : LineOf net root id l) {site : Site} {done : List Operand} {n : Nat}
    (hinput : site.input < n) (hindex : site.index < n)
    (hdone : ∀ x, (done.getD x default).var < n) (scope : List VarId) :
    net.Reduces (fun v => Code.allBindings v scope (Code.line site done n l)) [id]
      (List.range' n l.locals.length) := by
  have hbinds := Code.bindsAll_line hinput hindex hdone l scope
  obtain ⟨⟨m, hm, hstep⟩, _⟩ := h
  have hnone : net.isReduction id = false → .accumulator ∉ l.roles →
      net.Reduces (fun v => Code.allBindings v scope (Code.line site done n l)) [id]
        (List.range' n l.locals.length) := by
    intro hnot hroles
    rw [Network.Reduces, hbinds.filter_accumulates hroles, List.filter_singleton, hnot]
    exact .nil
  obtain ⟨step, extent⟩ := l
  cases m with
  | reduce kind x =>
    cases hstep
    have hreduction : net.isReduction id = true := by simp only [Network.isReduction, hm]
    have hfirst : accumulates (fun v => Code.allBindings v scope (Code.line site done n _)) n =
        true := (hbinds.bound (j := 0) rfl rfl).accumulates_iff.2 rfl
    have hnext : ¬accumulates (fun v => Code.allBindings v scope (Code.line site done n _))
        (n + 1) = true := fun hacc => by
      cases (hbinds.bound (j := 1) rfl rfl).accumulates_iff.1 hacc
    have hvs : List.range' n
        (Line.locals ⟨.reduce kind ((net.order root).idxOf x), extent⟩).length = [n, n + 1] := rfl
    rw [Network.Reduces, hvs, List.filter_singleton, hreduction, List.filter_cons_of_pos hfirst,
      List.filter_cons_of_neg hnext]
    exact .cons ⟨kind, x, hm, Code.folded_reduce n kind _ scope⟩ .nil
  | binary op x y =>
    obtain rfl := Node.step?_binary hstep
    exact hnone (by simp only [Network.isReduction, hm]) (by cases extent <;> simp [Line.roles])
  | _ =>
    cases hstep
    all_goals
      exact hnone (by simp only [Network.isReduction, hm]) (by cases extent <;> simp [Line.roles])

/-- What the code of a recipe folds into, one variable for each reduction. -/
theorem reduces_code {ids : List NodeId} {r : Recipe} (h : List.Forall₂ (LineOf net root) ids r)
    {site : Site} {done : List Operand} {n : Nat} (hinput : site.input < n)
    (hindex : site.index < n) (hdone : ∀ x ∈ done, x.var < n) (scope : List VarId) :
    net.Reduces (fun v => Code.allBindings v scope (r.code site done n)) ids
      (List.range' n r.locals.length) := by
  induction h generalizing done n with
  | nil => exact .nil
  | @cons id l ids rest hl _ ih =>
    have hle : n ≤ n + l.locals.length := Nat.le_add_right n _
    have hline := hl.reduces hinput hindex
      (Recipe.getD_var (Q := (· < n)) (Nat.zero_lt_of_lt hindex) hdone) scope
    have hrest := ih (hinput.trans_le hle) (hindex.trans_le hle)
      (Recipe.lt_of_mem_done (l := l) hdone)
    have hlength : Recipe.locals (l :: rest) = l.locals ++ Recipe.locals rest := List.flatMap_cons
    rw [hlength, List.length_append, ← List.range'_append_1, ← List.singleton_append]
    refine (hline.lift (fun w hw => ?_) fun w hw => ?_).append
      (hrest.lift (fun w hw => ?_) fun w hw => ?_)
    · exact Recipe.allBindings_line (List.mem_range'_1.1 hw).2
    · have hwrites := Code.mem_allWrites_of_bindings hw
      exact Recipe.allBindings_line (Code.of_mem_writes_line hwrites).2
    · exact Recipe.allBindings_rest (List.mem_range'_1.1 hw).1
    · have hwrites := Code.mem_allWrites_of_bindings hw
      exact Recipe.allBindings_rest (Recipe.of_mem_writes_code hwrites).1

end

end Synapse
