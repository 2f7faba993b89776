import Mathlib.Tactic
import Synapse.Proofs.Scopes

namespace Synapse

namespace Kernel

variable {k : Kernel} {defined : List VarId}

/-- The variables of a kernel. -/
def declared (k : Kernel) : List VarId := List.range k.vars.size

theorem var_eq_ok {v : VarId} (h : v ∈ k.declared) : ∃ x, k.var v = .ok x := by
  have hlt : v < k.vars.size := List.mem_range.1 h
  exact ⟨k.vars[v], by rw [var, Array.getElem?_eq_getElem hlt]⟩

theorem table_eq_ok {t : TableId} (h : t < k.tables.size) : ∃ x, k.table t = .ok x :=
  ⟨k.tables[t], by rw [table, Array.getElem?_eq_getElem h]⟩

/-- What can be assigned to names only what is declared. -/
theorem scoped_of_assignable {φ : Formula} (h : φ.Assignable k defined)
    (hsub : defined ⊆ k.declared) : φ.Scoped k k.declared := by
  cases φ with
  | var v => exact List.mem_range.2 h
  | element v i => exact ⟨List.mem_range.2 h.1, h.2.mono hsub⟩
  | _ => exact h.elim

theorem nodeText_eq_ok {id : NodeId} {φ : Formula} (hφ : formulaOf k.arena.nodes id = some φ)
    (hs : φ.Scoped k k.declared) : ∃ text, k.nodeText id = .ok text := by
  induction id using Nat.strong_induction_on generalizing φ with
  | _ id ih =>
  obtain ⟨n, hn, hlt, hform⟩ := formulaOf_some hφ
  have hoperand : ∀ x ∈ n.operands, ∃ text, k.nodeText x = .ok text := by
    intro x hx
    obtain ⟨ψ, hψ, hψs⟩ := scoped_operand hform hs hx
    exact ih x (hlt x hx) hψ hψs
  rw [nodeText, Arena.find?_of_lt hn hlt]
  cases n with
  | literal c => exact ⟨_, rfl⟩
  | input m => cases hform
  | reduce kind x => cases hform
  | var v =>
    obtain rfl := Option.some.inj hform
    obtain ⟨x, hx⟩ := var_eq_ok hs
    exact ⟨x.name, by simp only [hx]; rfl⟩
  | element v x =>
    obtain ⟨ψ, _, rfl⟩ := Option.map_eq_some_iff.1 hform
    obtain ⟨y, hy⟩ := var_eq_ok hs.1
    obtain ⟨text, htext⟩ := hoperand x (by simp [Node.operands])
    exact ⟨_, by simp only [hy, htext]; rfl⟩
  | binary op l r =>
    obtain ⟨left, hleft⟩ := hoperand l (by simp [Node.operands])
    obtain ⟨right, hright⟩ := hoperand r (by simp [Node.operands])
    exact ⟨_, by simp only [hleft, hright]; rfl⟩
  | unary _ x | activate _ x | entry _ x =>
    obtain ⟨text, htext⟩ := hoperand x (by simp [Node.operands])
    exact ⟨_, by simp only [htext]; rfl⟩

end Kernel

/-- Where all that a formula names is declared, its type may be wrong but not missing. -/
theorem Formula.type_ne_defect {k : Kernel} {φ : Formula} (h : φ.Scoped k k.declared) (d : Defect) :
    φ.type k.env ≠ .error (.defect d) := by
  have hvar : ∀ v ∈ k.declared, ∃ t, k.env.var v = .ok t := by
    intro v hv
    obtain ⟨x, hx⟩ := Kernel.var_eq_ok hv
    exact ⟨x.ty, by simp [Kernel.env, hx, Except.map]⟩
  induction φ with
  | literal c => exact fun h => by cases h
  | var v =>
    obtain ⟨t, ht⟩ := hvar v h
    rw [type, orDefect_eq_ok.2 ht]
    exact fun h => by cases h
  | element v i ih =>
    obtain ⟨t, ht⟩ := hvar v h.1
    rw [type, orDefect_eq_ok.2 ht]
    apply bind_ne_defect (orTypeError_ne_defect _ d)
    intro s
    apply bind_ne_defect (ih h.2)
    intro u
    exact bind_ne_defect (orTypeError_ne_defect _ d) fun _ => fun h => by cases h
  | entry t i ih =>
    obtain ⟨x, hx⟩ := Kernel.table_eq_ok h.1
    have ht : k.env.table t = .ok x.elem := by simp [Kernel.env, hx, Except.map]
    rw [type, orDefect_eq_ok.2 ht]
    apply bind_ne_defect (ih h.2)
    intro u
    exact bind_ne_defect (orTypeError_ne_defect _ d) fun _ => fun h => by cases h
  | unary op x ih => exact ih h
  | binary op l r ihl ihr =>
    apply bind_ne_defect (ihl h.1)
    intro t
    apply bind_ne_defect (ihr h.2)
    intro u
    exact orTypeError_ne_defect _ d
  | activate name x ih =>
    apply bind_ne_defect (ih h)
    intro t
    exact orTypeError_ne_defect _ d

theorem Typing.Finds.attempt {known : Types} {nodes : Array Node} {env : Env} {α : Type}
    {x : Typing α} {r : Except Failure α} (h : Finds known nodes env x r)
    (hr : ∀ d, r ≠ .error (.defect d)) :
    ∃ q, Finds known nodes env (attempt x) (.ok q) := by
  have hcases : (∃ a, r = .ok a) ∨ ∃ e, r = .error (.error e) := by
    cases r with
    | ok a => exact .inl ⟨a, rfl⟩
    | error e =>
      cases e with
      | error e => exact .inr ⟨e, rfl⟩
      | defect d => exact absurd rfl (hr d)
  rcases hcases with ⟨a, rfl⟩ | ⟨e, rfl⟩
  · refine ⟨.ok a, fun ts hts => ?_⟩
    obtain ⟨ts', hts', hx⟩ := h ts hts
    exact ⟨ts', hts', by rw [Synapse.attempt, hx]; rfl⟩
  · refine ⟨.error e, fun ts hts => ?_⟩
    obtain ⟨ts', hts', hx⟩ := h ts hts
    exact ⟨ts', hts', by rw [Synapse.attempt, hx]; rfl⟩

namespace Kernel

variable {k : Kernel}

/-- A search for types that succeeds. -/
def Lists {α : Type} (k : Kernel) (x : Typing α) : Prop :=
  ∃ a, Typing.Finds ∅ k.arena.nodes k.env x (.ok a)

theorem Lists.bind {α β : Type} {x : Typing α} {f : α → Typing β} (hx : k.Lists x)
    (hf : ∀ a, k.Lists (f a)) : k.Lists (x >>= f) := by
  obtain ⟨a, ha⟩ := hx
  obtain ⟨b, hb⟩ := hf a
  have hbind := ha.bind (g := fun _ => .ok b) fun a' ha' => by
    obtain rfl := Except.ok.inj ha'
    exact hb
  exact ⟨b, hbind⟩

theorem Lists.pure {α : Type} (a : α) : k.Lists (Pure.pure a) := ⟨a, Typing.Finds.pure a⟩

theorem Lists.orDefect {α : Type} {r : Except Defect α} (h : ∃ a, r = .ok a) :
    k.Lists (Synapse.orDefect r) := by
  obtain ⟨a, rfl⟩ := h
  exact Lists.pure a

theorem lists_targetText {id : NodeId} {φ : Formula} (hφ : formulaOf k.arena.nodes id = some φ)
    (hs : φ.Scoped k k.declared) : k.Lists (k.targetText id) := by
  apply Lists.bind ((finds_infer hφ).attempt (Formula.type_ne_defect hs))
  intro r
  cases r with
  | ok t => exact Lists.pure _
  | error e => exact Lists.pure _

theorem binds_subset_declared {c : Code} {defined : List VarId} (hs : c.Scoped k defined) :
    c.binds ⊆ k.declared := by
  cases c with
  | define v => exact List.cons_subset.2 ⟨List.mem_range.2 hs, List.nil_subset _⟩
  | assign lhs rhs =>
    intro v hv
    cases lhs with
    | var w =>
      obtain rfl : v = w := by simpa [Code.binds, Formula.target?] using hv
      exact List.mem_range.2 hs.2
    | element w i =>
      obtain rfl : v = w := by simpa [Code.binds, Formula.target?] using hv
      exact List.mem_range.2 hs.2.1
    | _ => exact hs.2.elim
  | loop i a b body => exact List.nil_subset _

mutual

theorem lists_stmtText (depth : Nat) (s : Stmt) {c : Code} (h : s.code? k.arena.nodes = some c)
    {defined : List VarId} (hsub : defined ⊆ k.declared) (hs : c.Scoped k defined) :
    k.Lists (k.stmtText depth s) := by
  cases s with
  | define v =>
    obtain rfl : Code.define v = c := by simpa [Stmt.code?] using h
    rw [stmtText]
    exact (Lists.orDefect (var_eq_ok (List.mem_range.2 hs))).bind fun _ => Lists.pure _
  | assign l r =>
    simp only [Stmt.code?, Option.bind_eq_bind, Option.bind_eq_some_iff] at h
    obtain ⟨φ, hφ, ψ, hψ, hc⟩ := h
    obtain rfl := Option.some.inj hc
    have hl := scoped_of_assignable hs.2 hsub
    rw [stmtText]
    apply (lists_targetText hφ hl).bind
    intro type
    apply (Lists.orDefect (nodeText_eq_ok hφ hl)).bind
    intro left
    exact (Lists.orDefect (nodeText_eq_ok hψ (hs.1.mono hsub))).bind fun _ => Lists.pure _
  | loop i a b body =>
    simp only [Stmt.code?, Option.bind_eq_bind, Option.bind_eq_some_iff] at h
    obtain ⟨φ, hφ, ψ, hψ, cs, hcs, hc⟩ := h
    obtain rfl := Option.some.inj hc
    obtain ⟨hi, hstart, hstop, hbody⟩ := hs
    have hindex : i ∈ k.declared := List.mem_range.2 hi
    have hsub' : i :: defined ⊆ k.declared := List.cons_subset.2 ⟨hindex, hsub⟩
    rw [stmtText]
    apply (Lists.orDefect (var_eq_ok hindex)).bind
    intro var
    apply (Lists.orDefect (nodeText_eq_ok hφ (hstart.mono hsub))).bind
    intro first
    apply (Lists.orDefect (nodeText_eq_ok hψ (hstop.mono hsub))).bind
    intro last
    exact (lists_bodyText (depth + 1) body hcs hsub' hbody).bind fun _ => Lists.pure _

theorem lists_bodyText (depth : Nat) (ss : List Stmt) {cs : List Code}
    (h : codesOf k.arena.nodes ss = some cs) {defined : List VarId} (hsub : defined ⊆ k.declared)
    (hs : Code.AllScoped k defined cs) : k.Lists (k.bodyText depth ss) := by
  cases ss with
  | nil =>
    rw [bodyText]
    exact Lists.pure _
  | cons s rest =>
    simp only [codesOf, Option.bind_eq_bind, Option.bind_eq_some_iff] at h
    obtain ⟨c, hc, cs', hcs', he⟩ := h
    obtain rfl := Option.some.inj he
    have hbinds : c.binds ++ defined ⊆ k.declared :=
      List.append_subset.2 ⟨binds_subset_declared hs.1, hsub⟩
    rw [bodyText]
    apply (lists_stmtText depth s hc hsub hs.1).bind
    intro here
    exact (lists_bodyText depth rest hcs' hbinds hs.2).bind fun _ => Lists.pure _

end

/-- A kernel whose code is scoped can be listed. -/
theorem run_listing_eq_ok {cs : List Code} (htypes : k.arena.types = ∅)
    (h : codesOf k.arena.nodes k.body = some cs) (hs : Code.AllScoped k [inputVar] cs)
    (hparameters : outputVar < k.vars.size) : ∃ text, k.run Kernel.listing = .ok text := by
  have hinput : inputVar < k.vars.size := Nat.lt_of_le_of_lt (Nat.zero_le _) hparameters
  have hsub : [inputVar] ⊆ k.declared :=
    List.cons_subset.2 ⟨List.mem_range.2 hinput, List.nil_subset _⟩
  have hlists : k.Lists k.listing := by
    apply (Lists.orDefect (var_eq_ok (List.mem_range.2 hinput))).bind
    intro input
    apply (Lists.orDefect (var_eq_ok (List.mem_range.2 hparameters))).bind
    intro output
    exact (lists_bodyText 0 k.body h hsub hs).bind fun _ => Lists.pure _
  obtain ⟨text, hfinds⟩ := hlists
  obtain ⟨types, _, hrun⟩ := hfinds ∅ (coherent_self _ _ _)
  exact ⟨text, by rw [Kernel.run, htypes, hrun]; rfl⟩

end Kernel

end Synapse
