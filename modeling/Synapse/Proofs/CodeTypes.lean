import Mathlib.Tactic
import Synapse.Kernel.Check
import Synapse.Proofs.Emission
import Synapse.Proofs.Recipes

namespace Synapse

namespace Formula

def type (env : Env) : Formula → Except Failure Ty
  | literal c => .ok c.ty
  | var v => orDefect (env.var v)
  | element v i => do
    let t ← orDefect (env.var v)
    let s ← orTypeError (Rule.element t)
    let u ← i.type env
    orTypeError (Rule.index u)
    pure s
  | entry t i => do
    let u ← i.type env
    orTypeError (Rule.index u)
    orDefect (env.table t)
  | unary _ x => x.type env
  | binary _ l r => do
    let t ← l.type env
    let u ← r.type env
    orTypeError (Rule.join t u)
  | activate name x => do
    let t ← x.type env
    orTypeError (Rule.activate name t)

def isEntry : Formula → Bool
  | entry _ _ => true
  | _ => false

def isTarget : Formula → Bool
  | var _ | element _ _ => true
  | _ => false

end Formula

namespace Code

mutual

def WellTyped (env : Env) : Code → Prop
  | define _ => True
  | assign lhs rhs => ∃ t u, lhs.type env = .ok t ∧ rhs.type env = .ok u ∧ t.agrees u = true ∧
    (t.isVector = true → rhs.isEntry = true) ∧ lhs.isTarget = true
  | loop _ start stop body => (∃ s, start.type env = .ok (.scalar s)) ∧
    (∃ s, stop.type env = .ok (.scalar s)) ∧ AllWellTyped env body

def AllWellTyped (env : Env) : List Code → Prop
  | [] => True
  | c :: rest => c.WellTyped env ∧ AllWellTyped env rest

end

theorem allWellTyped_append {env : Env} {cs ds : List Code} :
    AllWellTyped env (cs ++ ds) ↔ AllWellTyped env cs ∧ AllWellTyped env ds := by
  induction cs with
  | nil => simp [AllWellTyped]
  | cons c cs ih => simp [AllWellTyped, ih, and_assoc]

theorem allWellTyped_flatMap {α : Type} {env : Env} {xs : List α} {f : α → List Code}
    (h : ∀ x ∈ xs, AllWellTyped env (f x)) : AllWellTyped env (xs.flatMap f) := by
  induction xs with
  | nil => trivial
  | cons x xs ih =>
    rw [List.flatMap_cons, allWellTyped_append]
    exact ⟨h x (by simp), ih fun y hy => h y (by simp [hy])⟩

end Code

theorem typeOf_of_formula {nodes : Array Node} {env : Env} {id : NodeId} {φ : Formula}
    (h : formulaOf nodes id = some φ) : typeOf nodes env id = φ.type env := by
  induction id using Nat.strong_induction_on generalizing φ with
  | _ id ih =>
  obtain ⟨n, hn, hlt, hφ⟩ := formulaOf_some h
  rw [typeOf, typeFrom_unknown (by simp), Arena.find?_of_lt hn hlt]
  change n.typeBy env (typeOf nodes env) = _
  have hih : ∀ x ∈ n.operands, ∀ ψ, formulaOf nodes x = some ψ →
      typeOf nodes env x = ψ.type env := fun x hx ψ hψ => ih x (hlt x hx) hψ
  cases n with
  | literal c =>
    obtain rfl := Option.some.inj hφ
    rfl
  | unary op x =>
    obtain ⟨ψ, hψ, rfl⟩ := Option.map_eq_some_iff.1 hφ
    exact hih x (by simp [Node.operands]) ψ hψ
  | binary op l r =>
    simp only [Node.formula?, Option.bind_eq_bind, Option.bind_eq_some_iff] at hφ
    obtain ⟨a, ha, b, hb, hab⟩ := hφ
    obtain rfl := Option.some.inj hab
    simp only [Node.typeBy, Formula.type, hih l (by simp [Node.operands]) a ha,
      hih r (by simp [Node.operands]) b hb]
  | input n => cases hφ
  | reduce kind x => cases hφ
  | activate name x =>
    obtain ⟨ψ, hψ, rfl⟩ := Option.map_eq_some_iff.1 hφ
    simp only [Node.typeBy, Formula.type, hih x (by simp [Node.operands]) ψ hψ]
  | var v =>
    obtain rfl := Option.some.inj hφ
    rfl
  | element v x =>
    obtain ⟨ψ, hψ, rfl⟩ := Option.map_eq_some_iff.1 hφ
    simp only [Node.typeBy, Formula.type, hih x (by simp [Node.operands]) ψ hψ]
  | entry t x =>
    obtain ⟨ψ, hψ, rfl⟩ := Option.map_eq_some_iff.1 hφ
    simp only [Node.typeBy, Formula.type, hih x (by simp [Node.operands]) ψ hψ]

theorem Node.formula?_kind {f : NodeId → Option Formula} {n : Node} {φ : Formula}
    (h : n.formula? f = some φ) :
    φ.isTarget = n.isTarget ∧ φ.isEntry = (match n with | .entry _ _ => true | _ => false) := by
  cases n with
  | literal c => obtain rfl := Option.some.inj h; exact ⟨rfl, rfl⟩
  | binary op l r =>
    simp only [formula?, Option.bind_eq_bind, Option.bind_eq_some_iff] at h
    obtain ⟨a, _, b, _, hab⟩ := h
    obtain rfl := Option.some.inj hab
    exact ⟨rfl, rfl⟩
  | input n => cases h
  | reduce kind x => cases h
  | var v => obtain rfl := Option.some.inj h; exact ⟨rfl, rfl⟩
  | unary _ _ | activate _ _ | element _ _ | entry _ _ =>
    obtain ⟨ψ, _, rfl⟩ := Option.map_eq_some_iff.1 h
    exact ⟨rfl, rfl⟩

namespace Kernel

variable {k : Kernel}

theorem isTarget_eq {id : NodeId} {φ : Formula} (h : formulaOf k.arena.nodes id = some φ) :
    k.isTarget id = φ.isTarget := by
  obtain ⟨n, hn, _, hφ⟩ := formulaOf_some h
  rw [isTarget, hn, (Node.formula?_kind hφ).1]

theorem isEntry_eq {id : NodeId} {φ : Formula} (h : formulaOf k.arena.nodes id = some φ) :
    k.isEntry id = φ.isEntry := by
  obtain ⟨n, hn, _, hφ⟩ := formulaOf_some h
  rw [isEntry, hn, (Node.formula?_kind hφ).2]
  cases n <;> rfl

theorem finds_infer {id : NodeId} {φ : Formula} (h : formulaOf k.arena.nodes id = some φ) :
    Typing.Finds ∅ k.arena.nodes k.env (k.infer id) (φ.type k.env) := by
  rw [← typeOf_of_formula h]
  exact Synapse.finds_infer ∅ k.arena.nodes k.env id

theorem finds_checkAssign {lhs rhs : NodeId} {φ ψ : Formula}
    (hφ : formulaOf k.arena.nodes lhs = some φ) (hψ : formulaOf k.arena.nodes rhs = some ψ) :
    ∃ r, Typing.Finds ∅ k.arena.nodes k.env (k.checkAssign lhs rhs) r ∧
      (r = .ok () ↔ (Code.assign φ ψ).WellTyped k.env) := by
  refine ⟨φ.type k.env >>= fun t => ψ.type k.env >>= fun u =>
    if !t.agrees u then orTypeError (.error (.assignmentMismatch t u))
    else if t.isVector && !ψ.isEntry then orTypeError (.error (.vectorAssignment t))
    else if !φ.isTarget then orTypeError (.error .notATarget)
    else .ok (), ?_, ?_⟩
  · unfold checkAssign
    refine (finds_infer hφ).bind fun t _ => (finds_infer hψ).bind fun u _ => ?_
    rw [isEntry_eq hψ, isTarget_eq hφ]
    split
    · exact Typing.Finds.orTypeError _
    · split
      · exact Typing.Finds.orTypeError _
      · split
        · exact Typing.Finds.orTypeError _
        · exact Typing.Finds.pure ()
  · rw [Code.WellTyped, bind_eq_ok]
    refine exists_congr fun t => ?_
    rw [bind_eq_ok]
    constructor
    · rintro ⟨ht, u, hu, hif⟩
      split at hif
      · cases hif
      split at hif
      · cases hif
      split at hif
      · cases hif
      simp_all
    · rintro ⟨u, ht, hu, hagrees, hentry, htarget⟩
      refine ⟨ht, u, hu, ?_⟩
      simp_all

theorem finds_checkBound {id : NodeId} {φ : Formula} (h : formulaOf k.arena.nodes id = some φ) :
    ∃ r, Typing.Finds ∅ k.arena.nodes k.env (k.checkBound id) r ∧
      (r = .ok () ↔ ∃ s, φ.type k.env = .ok (.scalar s)) := by
  refine ⟨φ.type k.env >>= fun t =>
    if t.isVector then orTypeError (.error (.vectorBound t)) else .ok (), ?_, ?_⟩
  · refine (finds_infer h).bind fun t _ => ?_
    split
    · exact Typing.Finds.orTypeError _
    · exact Typing.Finds.pure ()
  · rw [bind_eq_ok]
    constructor
    · rintro ⟨t, ht, hif⟩
      cases t with
      | scalar s => exact ⟨s, ht⟩
      | vector s n => cases hif
    · rintro ⟨s, hs⟩
      exact ⟨_, hs, rfl⟩

theorem seq_eq_ok {x y : Except Failure Unit} :
    (x >>= fun _ => y) = .ok () ↔ x = .ok () ∧ y = .ok () := by
  cases x <;> simp [bind, Except.bind]

mutual

theorem finds_checkStmt (s : Stmt) {c : Code} (h : s.code? k.arena.nodes = some c) :
    ∃ r, Typing.Finds ∅ k.arena.nodes k.env (k.checkStmt s) r ∧
      (r = .ok () ↔ c.WellTyped k.env) := by
  cases s with
  | define v =>
    obtain rfl : Code.define v = c := by simpa [Stmt.code?] using h
    exact ⟨.ok (), by rw [checkStmt]; exact Typing.Finds.pure (), by simp [Code.WellTyped]⟩
  | assign l r =>
    simp only [Stmt.code?, Option.bind_eq_bind, Option.bind_eq_some_iff] at h
    obtain ⟨φ, hφ, ψ, hψ, hc⟩ := h
    obtain rfl := Option.some.inj hc
    rw [checkStmt]
    exact finds_checkAssign hφ hψ
  | loop i a b body =>
    simp only [Stmt.code?, Option.bind_eq_bind, Option.bind_eq_some_iff] at h
    obtain ⟨φ, hφ, ψ, hψ, cs, hcs, hc⟩ := h
    obtain rfl := Option.some.inj hc
    obtain ⟨r₁, h₁, hr₁⟩ := finds_checkBound hφ
    obtain ⟨r₂, h₂, hr₂⟩ := finds_checkBound hψ
    obtain ⟨r₃, h₃, hr₃⟩ := finds_checkBody body hcs
    rw [checkStmt]
    refine ⟨_, h₁.bind fun _ _ => h₂.bind fun _ _ => h₃, ?_⟩
    rw [seq_eq_ok, seq_eq_ok, hr₁, hr₂, hr₃, Code.WellTyped]

theorem finds_checkBody (ss : List Stmt) {cs : List Code} (h : codesOf k.arena.nodes ss = some cs) :
    ∃ r, Typing.Finds ∅ k.arena.nodes k.env (k.checkBody ss) r ∧
      (r = .ok () ↔ Code.AllWellTyped k.env cs) := by
  cases ss with
  | nil =>
    obtain rfl : [] = cs := by simpa [codesOf] using h
    exact ⟨.ok (), by rw [checkBody]; exact Typing.Finds.pure (), by simp [Code.AllWellTyped]⟩
  | cons s rest =>
    simp only [codesOf, Option.bind_eq_bind, Option.bind_eq_some_iff] at h
    obtain ⟨c, hc, cs', hcs', he⟩ := h
    obtain rfl := Option.some.inj he
    obtain ⟨r₁, h₁, hr₁⟩ := finds_checkStmt s hc
    obtain ⟨r₂, h₂, hr₂⟩ := finds_checkBody rest hcs'
    rw [checkBody]
    refine ⟨_, h₁.bind fun _ _ => h₂, ?_⟩
    rw [seq_eq_ok, hr₁, hr₂, Code.AllWellTyped]

end

/-- A kernel passes its check exactly if its code is well typed. -/
theorem run_check_eq_ok {cs : List Code} (htypes : k.arena.types = ∅)
    (h : codesOf k.arena.nodes k.body = some cs) :
    k.run Kernel.check = .ok () ↔ Code.AllWellTyped k.env cs := by
  obtain ⟨r, hfinds, hr⟩ := finds_checkBody k.body h
  obtain ⟨types, _, hrun⟩ := hfinds ∅ (coherent_self _ _ _)
  rw [← hr, Kernel.run, Kernel.check, htypes, hrun]
  cases r <;> simp [outcome]

end Kernel

section

variable {env : Env}

namespace Formula

theorem type_var {v : VarId} {t : Ty} (h : env.var v = .ok t) : (var v).type env = .ok t :=
  orDefect_eq_ok.2 h

theorem type_element {v : VarId} {i : Formula} {s u : Scalar} {m : Option Nat}
    (hv : env.var v = .ok (.vector s m)) (hi : i.type env = .ok (.scalar u)) :
    (element v i).type env = .ok (.scalar s) := by
  simp only [type, hv, hi]
  rfl

theorem type_entry {t : TableId} {i : Formula} {u : Scalar} {ty : Ty}
    (ht : env.table t = .ok ty) (hi : i.type env = .ok (.scalar u)) :
    (entry t i).type env = .ok ty := by
  simp only [type, ht, hi]
  rfl

theorem type_binary {op : Binary} {φ ψ : Formula} {t u v : Ty} (hφ : φ.type env = .ok t)
    (hψ : ψ.type env = .ok u) (h : t.join u = some v) : (binary op φ ψ).type env = .ok v := by
  simp only [type, hφ, hψ, bind, Except.bind]
  exact orTypeError_eq_ok.2 (Rule.join_eq_ok.2 h)

/-- An operand is read as a scalar, a vector at the element that is computed. -/
theorem type_operand {x : Operand} (hx : env.var x.var = .ok x.extent.ty) {e : Option VarId}
    (he : (∃ s, x.extent = .scalar s) ∨ ∃ i, e = some i ∧ env.var i = .ok .int) :
    (operand e x).type env = .ok (.scalar x.extent.ty.elem) := by
  obtain ⟨v, extent⟩ := x
  cases extent with
  | scalar s => cases e <;> exact type_var hx
  | vector s n =>
    rcases he with ⟨s', hs'⟩ | ⟨i, rfl, hi⟩
    · cases hs'
    · exact type_element hx (type_var hi)

end Formula

namespace Code

theorem wellTyped_assign {φ ψ : Formula} {s : Scalar} (hφ : φ.type env = .ok (.scalar s))
    (hψ : ψ.type env = .ok (.scalar s)) (h : φ.isTarget = true) :
    (Code.assign φ ψ).WellTyped env := by
  rw [Code.WellTyped]
  exact ⟨_, _, hφ, hψ, by simp [Ty.agrees], by simp [Ty.isVector, Ty.isScalar], h⟩

theorem wellTyped_loop {v : VarId} {a b : Int} {cs : List Code} (h : AllWellTyped env cs) :
    (Code.loop v (.int a) (.int b) cs).WellTyped env := by
  rw [Code.WellTyped]
  exact ⟨⟨.int, rfl⟩, ⟨.int, rfl⟩, h⟩

theorem allWellTyped_singleton {c : Code} : AllWellTyped env [c] ↔ c.WellTyped env := by
  simp [AllWellTyped]

theorem allWellTyped_elementwise {n : Nat} {extent : Extent} {φ : Option VarId → Formula}
    (hn : env.var n = .ok extent.ty)
    (hindex : ∀ s m, extent = .vector s m → env.var (n + 1) = .ok .int)
    (hφ : ∀ e : Option VarId, (∃ s, extent = .scalar s) ∨ (∃ i, e = some i ∧ env.var i = .ok .int) →
      (φ e).type env = .ok (.scalar extent.ty.elem)) :
    AllWellTyped env (elementwise n extent φ) := by
  cases extent with
  | scalar s =>
    refine allWellTyped_singleton.2 ?_
    exact wellTyped_assign (Formula.type_var hn) (hφ none (.inl ⟨s, rfl⟩)) rfl
  | vector s m =>
    have hi := hindex s m rfl
    refine ⟨by simp [Code.WellTyped], wellTyped_loop (allWellTyped_singleton.2 ?_), trivial⟩
    exact wellTyped_assign (Formula.type_element hn (Formula.type_var hi))
      (hφ _ (.inr ⟨_, rfl, hi⟩)) rfl

end Code

/-- The types of what the code of an ensemble reads besides its own variables. -/
structure Site.Typed (env : Env) (site : Site) (literals : List Ty) : Prop where
  index : env.var site.index = .ok .int
  input : ∃ m, env.var site.input = .ok (.vector .real m)
  wiring : ∀ t, site.wiring = .table t → env.table t = .ok .int
  literals : ∀ (rank : Nat) (t : Ty), literals[rank]? = some t →
    env.table (site.firstTable + rank) = .ok t

theorem Site.Typed.sourceIndex {site : Site} {literals : List Ty} (h : site.Typed env literals)
    (i : Nat) : (Formula.sourceIndex site i).type env = .ok .int := by
  have hindex := Formula.type_var h.index
  unfold Formula.sourceIndex
  cases hw : site.wiring with
  | affine stride =>
    have hscaled : (Formula.scaledIndex site stride).type env = .ok .int := by
      unfold Formula.scaledIndex
      split
      · exact hindex
      · exact Formula.type_binary rfl hindex rfl
    simp only
    split
    · rfl
    · split
      · exact hscaled
      · exact Formula.type_binary rfl hscaled rfl
  | table t =>
    have hentry := Formula.type_entry (h.wiring t hw) hindex
    simp only
    split
    · exact hentry
    · exact Formula.type_binary hentry rfl rfl

theorem allWellTyped_readInput {site : Site} {literals : List Ty} (h : site.Typed env literals)
    {i : VarId} {φ ψ : Formula} (hi : env.var i = .ok .int) (hφ : φ.type env = .ok .int)
    (hψ : ψ.type env = .ok .real) (htarget : ψ.isTarget = true) :
    Code.AllWellTyped env (Code.readInput site i φ ψ) := by
  obtain ⟨m, hm⟩ := h.input
  refine ⟨Code.wellTyped_assign (Formula.type_var hi) hφ rfl,
    Code.wellTyped_assign hψ (Formula.type_element hm (Formula.type_var hi)) htarget, trivial⟩

theorem allWellTyped_input {site : Site} {literals : List Ty} (h : site.Typed env literals)
    {n : Nat} {extent : Extent}
    (hlocals : ∀ (i : Nat) (t : Ty), (Line.locals ⟨.input, extent⟩)[i]? = some t →
      env.var (n + i) = .ok t) (hreal : extent.ty.elem = .real) :
    Code.AllWellTyped env (Code.input site n extent) := by
  cases extent with
  | scalar s =>
    obtain rfl : s = .real := hreal
    exact allWellTyped_readInput h (hlocals 1 _ rfl) (Formula.type_var h.index)
      (Formula.type_var (hlocals 0 _ rfl)) rfl
  | vector s m =>
    obtain rfl : s = .real := hreal
    refine ⟨by simp [Code.WellTyped], Code.allWellTyped_flatMap fun i hi => ?_⟩
    have hi : i < m := List.mem_range.1 hi
    refine allWellTyped_readInput h ?_ (h.sourceIndex i)
      (Formula.type_element (hlocals 0 _ rfl) rfl) rfl
    rw [Nat.add_assoc, Nat.add_comm 1 i]
    exact hlocals (i + 1) .int (by simp [Line.locals, hi])

theorem Ty.agrees_self (t : Ty) : t.agrees t = true := by
  cases t <;> simp [Ty.agrees]

/-- Elementwise operators compute on scalars, and give a scalar only for scalars. -/
theorem Extent.join_elem {x y z : Extent} (h : x.ty.join y.ty = some z.ty) :
    (Ty.scalar x.ty.elem).join (.scalar y.ty.elem) = some (.scalar z.ty.elem) ∧
      ∀ s, z = .scalar s → (∃ a, x = .scalar a) ∧ ∃ b, y = .scalar b := by
  simp only [Ty.join, Option.bind_eq_bind, Option.bind_eq_some_iff] at h
  obtain ⟨u, hu, hz⟩ := h
  have hu' : x.ty.elem.join y.ty.elem = some u := hu
  cases x <;> cases y <;> cases z <;>
    simp_all [Ty.join, Ty.isScalar, Extent.ty, Ty.elem]

/-- The type of an earlier step by its number. -/
theorem operand_getElem? {done : List Operand} (hdone : ∀ x ∈ done, env.var x.var = .ok x.extent.ty)
    {x : Nat} {extent : Extent} (hx : (done.map (·.extent))[x]? = some extent) :
    (done.getD x default).extent = extent ∧
      env.var (done.getD x default).var = .ok (done.getD x default).extent.ty := by
  rw [List.getElem?_map] at hx
  obtain ⟨o, ho, rfl⟩ := Option.map_eq_some_iff.1 hx
  rw [List.getD_eq_getElem?_getD, ho, Option.getD_some]
  exact ⟨rfl, hdone o (List.mem_of_getElem? ho)⟩

theorem allWellTyped_line {site : Site} {literals : List Ty} (h : site.Typed env literals)
    {n : Nat} {done : List Operand} {l : Line} {ty : Ty}
    (hdone : ∀ x ∈ done, env.var x.var = .ok x.extent.ty)
    (hlocals : ∀ (i : Nat) (t : Ty), l.locals[i]? = some t → env.var (n + i) = .ok t)
    (htyped : l.Typed literals ty (done.map (·.extent))) (hreal : ty.elem = .real) :
    Code.AllWellTyped env (Code.line site done n l) := by
  obtain ⟨step, extent⟩ := l
  have hn : env.var n = .ok extent.ty := hlocals 0 _ (Line.locals_zero _)
  cases step with
  | literal rank =>
    have htable := h.literals rank extent.ty htyped
    refine Code.allWellTyped_singleton.2 ?_
    rw [Code.WellTyped]
    exact ⟨_, _, Formula.type_var hn, Formula.type_entry htable (Formula.type_var h.index),
      Ty.agrees_self _, fun _ => rfl, rfl⟩
  | unary op x =>
    have hindex : ∀ s m, extent = .vector s m → env.var (n + 1) = .ok .int := by
      rintro s m rfl
      exact hlocals 1 _ rfl
    obtain ⟨hx, hxt⟩ := operand_getElem? hdone htyped
    refine Code.allWellTyped_elementwise (φ := fun e => .unary op (.operand e _)) hn hindex
      fun e he => ?_
    rw [← hx] at he ⊢
    exact Formula.type_operand hxt he
  | binary op x y =>
    have hindex : ∀ s m, extent = .vector s m → env.var (n + 1) = .ok .int := by
      rintro s m rfl
      exact hlocals 1 _ rfl
    obtain ⟨a, b, ha, hb, hjoin⟩ := htyped
    obtain ⟨rfl, hx⟩ := operand_getElem? hdone ha
    obtain ⟨rfl, hy⟩ := operand_getElem? hdone hb
    obtain ⟨helem, hscalar⟩ := Extent.join_elem hjoin
    refine Code.allWellTyped_elementwise
      (φ := fun e => .binary op (.operand e _) (.operand e _)) hn hindex fun e he => ?_
    refine Formula.type_binary (Formula.type_operand hx ?_) (Formula.type_operand hy ?_) helem
    · exact he.imp_left fun ⟨s, hs⟩ => (hscalar s hs).1
    · exact he.imp_left fun ⟨s, hs⟩ => (hscalar s hs).2
  | input =>
    refine allWellTyped_input h hlocals ?_
    rw [← hreal, show ty = extent.ty from htyped]
  | reduce kind x =>
    obtain ⟨s, m, hx, hextent⟩ := htyped
    obtain rfl : extent = .scalar s := hextent
    obtain ⟨hxe, hxt⟩ := operand_getElem? hdone hx
    have hindex : env.var (n + 1) = .ok .int := hlocals 1 _ rfl
    have hacc := Formula.type_var hn
    have hoperand := Formula.type_operand hxt (e := some (n + 1)) (.inr ⟨_, rfl, hindex⟩)
    rw [hxe] at hxt hoperand
    refine ⟨Code.wellTyped_assign hacc (Formula.type_element hxt rfl) rfl,
      Code.wellTyped_loop (Code.allWellTyped_singleton.2 ?_), trivial⟩
    exact Code.wellTyped_assign hacc (Formula.type_binary hacc hoperand (by cases s <;> rfl)) rfl
  | activate name x =>
    obtain ⟨s, hx, hextent⟩ := htyped
    obtain rfl : extent = .scalar s := hextent
    obtain ⟨hxe, hxt⟩ := operand_getElem? hdone hx
    rw [hxe] at hxt
    refine Code.allWellTyped_singleton.2 (Code.wellTyped_assign (Formula.type_var hn) ?_ rfl)
    simp only [Formula.type, hxt]
    rfl

theorem allWellTyped_recipe {site : Site} {literals : List Ty} (h : site.Typed env literals)
    {ty : Ty} (hreal : ty.elem = .real) (rest : Recipe) {n : Nat} {done : List Operand}
    (hdone : ∀ x ∈ done, env.var x.var = .ok x.extent.ty)
    (hlocals : ∀ (i : Nat) (t : Ty), rest.locals[i]? = some t → env.var (n + i) = .ok t)
    (htyped : rest.Typed literals ty (done.map (·.extent))) :
    Code.AllWellTyped env (rest.code site done n) ∧
      ∀ x ∈ done ++ rest.operands n, env.var x.var = .ok x.extent.ty := by
  induction rest generalizing n done with
  | nil => exact ⟨trivial, by simpa [Recipe.operands] using hdone⟩
  | cons l rest ih =>
    obtain ⟨hl, hrest⟩ := htyped
    have hcons : Recipe.locals (l :: rest) = l.locals ++ Recipe.locals rest := by
      simp [Recipe.locals]
    rw [hcons] at hlocals
    have hhere : ∀ (i : Nat) (t : Ty), l.locals[i]? = some t → env.var (n + i) = .ok t := by
      intro i t hi
      have hlt : i < l.locals.length := (List.getElem?_eq_some_iff.1 hi).1
      exact hlocals i t (by rw [List.getElem?_append_left hlt, hi])
    have hdone' : ∀ x ∈ done ++ [⟨n, l.extent⟩], env.var x.var = .ok x.extent.ty := by
      intro x hx
      rcases List.mem_append.1 hx with hx | hx
      · exact hdone x hx
      · rw [List.mem_singleton.1 hx]
        exact hhere 0 _ l.locals_zero
    have hbelow := ih hdone' (n := n + l.locals.length) (fun i t hi => by
      rw [Nat.add_assoc]
      exact hlocals _ t (by rw [List.getElem?_append_right (by omega)]; simpa using hi))
      (by simpa using hrest)
    rw [Recipe.code, Code.allWellTyped_append, Recipe.operands]
    exact ⟨⟨allWellTyped_line h hdone hhere hl hreal, hbelow.1⟩, by simpa using hbelow.2⟩

/-- The loop of an ensemble is well typed exactly if the result that it stores is real. -/
theorem wellTyped_ensemble {e : Ensemble} {site : VarId → Site} {r : Recipe} {n output : Nat}
    {literals : List Ty} {ty : Ty} {s : Scalar} {m : Option Nat}
    (h : (site n).Typed env literals) (hindex : (site n).index = n) (hreal : ty.elem = .real)
    (hlocals : ∀ (i : Nat) (t : Ty), r.locals[i]? = some t → env.var (n + 1 + i) = .ok t)
    (htyped : r.Typed literals ty []) (hlast : (r.map (·.extent)).getLast? = some (.scalar s))
    (houtput : env.var output = .ok (.vector .real m)) :
    (Code.ensemble e site r output n).WellTyped env ↔ s = .real := by
  obtain ⟨hcode, hvars⟩ := allWellTyped_recipe h hreal r (List.forall_mem_nil _) hlocals
    htyped
  rw [← Recipe.map_extent_operands r (n + 1), List.getLast?_map] at hlast
  obtain ⟨x, hx, hxs⟩ := Option.map_eq_some_iff.1 hlast
  have hx' : (r.operands (n + 1)).getLastD default = x := by
    rw [List.getLastD_eq_getLast?, hx, Option.getD_some]
  have hxt : env.var x.var = .ok (.scalar s) := by
    rw [hvars x (by simpa using List.mem_of_getLast? hx), hxs]
    rfl
  have hleft : (Formula.element output (.var n)).type env = .ok .real :=
    Formula.type_element houtput (Formula.type_var (hindex ▸ h.index))
  have hright : (Formula.var x.var).type env = .ok (.scalar s) := Formula.type_var hxt
  rw [Code.ensemble, hx', Code.WellTyped, Code.allWellTyped_append, Code.allWellTyped_singleton]
  constructor
  · rintro ⟨_, _, _, hstore⟩
    rw [Code.WellTyped] at hstore
    obtain ⟨t, u, ht, hu, hagrees, _⟩ := hstore
    rw [hleft] at ht
    rw [hright] at hu
    cases ht
    cases hu
    exact (beq_iff_eq.1 hagrees).symm
  · rintro rfl
    exact ⟨⟨.int, rfl⟩, ⟨.int, rfl⟩, hcode, Code.wellTyped_assign hleft hright rfl⟩

end

end Synapse
