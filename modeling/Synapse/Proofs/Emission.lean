import Mathlib.Tactic
import Synapse.Lowering.Ensemble
import Synapse.Proofs.Semantics
import Synapse.Proofs.WellFormed

namespace Synapse

theorem Node.formula?_mono {f g : NodeId → Option Formula} {n : Node} {φ : Formula}
    (h : ∀ x ∈ n.operands, ∀ ψ, f x = some ψ → g x = some ψ) (hφ : n.formula? f = some φ) :
    n.formula? g = some φ := by
  have hone : ∀ {x : NodeId} {k : Formula → Formula}, x ∈ n.operands → (f x).map k = some φ →
      (g x).map k = some φ := by
    intro x k hx hk
    obtain ⟨ψ, hψ, rfl⟩ := Option.map_eq_some_iff.1 hk
    rw [h x hx ψ hψ, Option.map_some]
  cases n with
  | literal c => exact hφ
  | unary op x => exact hone (by simp [operands]) hφ
  | binary op l r =>
    simp only [formula?, Option.bind_eq_bind, Option.bind_eq_some_iff] at hφ ⊢
    obtain ⟨a, ha, b, hb, hab⟩ := hφ
    exact ⟨a, h l (by simp [operands]) a ha, b, h r (by simp [operands]) b hb, hab⟩
  | input n => cases hφ
  | reduce kind x => cases hφ
  | activate name x => exact hone (by simp [operands]) hφ
  | var v => exact hφ
  | element v x => exact hone (by simp [operands]) hφ
  | entry t x => exact hone (by simp [operands]) hφ

theorem Node.formula?_congr {f g : NodeId → Option Formula} {n : Node}
    (h : ∀ x ∈ n.operands, f x = g x) : n.formula? f = n.formula? g := by
  cases n <;> simp_all [formula?, operands]

theorem Node.formula?_operand {f : NodeId → Option Formula} {n : Node} {φ : Formula}
    (h : n.formula? f = some φ) {x : NodeId} (hx : x ∈ n.operands) : ∃ ψ, f x = some ψ := by
  cases n <;> simp_all [formula?, operands, Option.map_eq_some_iff, Option.bind_eq_some_iff]
  case binary l r =>
    obtain ⟨a, ha, b, hb, _⟩ := h
    rcases hx with rfl | rfl
    · exact ⟨a, ha⟩
    · exact ⟨b, hb⟩
  all_goals
    obtain ⟨ψ, hψ, _⟩ := h
    exact ⟨ψ, hψ⟩

theorem formulaOf_eq {nodes : Array Node} {id : NodeId} {n : Node} (hn : nodes[id]? = some n)
    (h : ∀ x ∈ n.operands, x < id) : formulaOf nodes id = n.formula? (formulaOf nodes) := by
  rw [formulaOf, Arena.find?_of_lt hn h]
  exact Node.formula?_congr fun x hx => if_pos (h x hx)

theorem formulaOf_some {nodes : Array Node} {id : NodeId} {φ : Formula}
    (h : formulaOf nodes id = some φ) :
    ∃ n, nodes[id]? = some n ∧ (∀ x ∈ n.operands, x < id) ∧
      n.formula? (formulaOf nodes) = some φ := by
  cases hn : Arena.find? nodes id with
  | none => simp [formulaOf, hn] at h
  | some m =>
    have hm := Arena.of_find?_some hn
    exact ⟨m.1, hm, m.2, by rw [← formulaOf_eq hm m.2, h]⟩

theorem lt_of_formulaOf {nodes : Array Node} {id : NodeId} {φ : Formula}
    (h : formulaOf nodes id = some φ) : id < nodes.size := by
  obtain ⟨n, hn, _⟩ := formulaOf_some h
  exact (Array.getElem?_eq_some_iff.1 hn).1

theorem formulaOf_mono {nodes nodes' : Array Node} (he : Arena.Extends nodes nodes') {id : NodeId}
    {φ : Formula} (h : formulaOf nodes id = some φ) : formulaOf nodes' id = some φ := by
  induction id using Nat.strong_induction_on generalizing φ with
  | _ id ih =>
  obtain ⟨n, hn, hlt, hφ⟩ := formulaOf_some h
  rw [formulaOf_eq (he _ _ hn) hlt]
  exact Node.formula?_mono (fun x hx ψ hψ => ih x (hlt x hx) hψ) hφ

mutual

theorem code?_mono {nodes nodes' : Array Node} (he : Arena.Extends nodes nodes') (s : Stmt)
    {c : Code} (h : s.code? nodes = some c) : s.code? nodes' = some c := by
  cases s with
  | define v => simpa [Stmt.code?] using h
  | assign l r =>
    simp only [Stmt.code?, Option.bind_eq_bind, Option.bind_eq_some_iff] at h ⊢
    obtain ⟨φ, hφ, ψ, hψ, hc⟩ := h
    exact ⟨φ, formulaOf_mono he hφ, ψ, formulaOf_mono he hψ, hc⟩
  | loop i a b body =>
    simp only [Stmt.code?, Option.bind_eq_bind, Option.bind_eq_some_iff] at h ⊢
    obtain ⟨φ, hφ, ψ, hψ, cs, hcs, hc⟩ := h
    exact ⟨φ, formulaOf_mono he hφ, ψ, formulaOf_mono he hψ, cs, codesOf_mono he body hcs, hc⟩

theorem codesOf_mono {nodes nodes' : Array Node} (he : Arena.Extends nodes nodes') (ss : List Stmt)
    {cs : List Code} (h : codesOf nodes ss = some cs) : codesOf nodes' ss = some cs := by
  cases ss with
  | nil => simpa [codesOf] using h
  | cons s rest =>
    simp only [codesOf, Option.bind_eq_bind, Option.bind_eq_some_iff] at h ⊢
    obtain ⟨c, hc, cs', hcs', he'⟩ := h
    exact ⟨c, code?_mono he s hc, cs', codesOf_mono he rest hcs', he'⟩

end

theorem codesOf_cons {nodes : Array Node} {s : Stmt} {ss : List Stmt} {c : Code} {cs : List Code}
    (hs : s.code? nodes = some c) (hss : codesOf nodes ss = some cs) :
    codesOf nodes (s :: ss) = some (c :: cs) := by
  simp [codesOf, hs, hss]

theorem codesOf_append {nodes : Array Node} {ss ss' : List Stmt} {cs cs' : List Code}
    (hs : codesOf nodes ss = some cs) (hs' : codesOf nodes ss' = some cs') :
    codesOf nodes (ss ++ ss') = some (cs ++ cs') := by
  induction ss generalizing cs with
  | nil =>
    obtain rfl : [] = cs := by simpa [codesOf] using hs
    exact hs'
  | cons s ss ih =>
    simp only [codesOf, Option.bind_eq_bind, Option.bind_eq_some_iff] at hs
    obtain ⟨c, hc, rest, hrest, hcs⟩ := hs
    obtain rfl : c :: rest = cs := by simpa using hcs
    exact codesOf_cons hc (ih hrest)

namespace Formula

abbrev int (n : Int) : Formula := .literal (.int n)

def operand (element : Option VarId) (x : Operand) : Formula :=
  match element, x.extent with
  | some e, .vector _ _ => .element x.var (.var e)
  | _, _ => .var x.var

def scaledIndex (site : Site) (stride : Int) : Formula :=
  if stride = 1 then .var site.index else .binary .mul (int stride) (.var site.index)

def sourceIndex (site : Site) (i : Nat) : Formula :=
  let source : Int := site.sources.getD i 0
  match site.wiring with
  | .affine stride =>
    let base := source - stride * site.start
    if stride = 0 then int base
    else if base = 0 then scaledIndex site stride
    else .binary .add (int base) (scaledIndex site stride)
  | .table t =>
    let offset := source - site.sources.getD 0 0
    if offset = 0 then .entry t (.var site.index)
    else .binary .add (.entry t (.var site.index)) (int offset)

end Formula

namespace Code

open Formula (int)

/-- Fills the variable `n`; a vector with the help of the loop index after it. -/
def elementwise (n : VarId) (extent : Extent) (value : Option VarId → Formula) : List Code :=
  match extent with
  | .scalar _ => [.assign (.var n) (value none)]
  | .vector _ len =>
    [.define n, .loop (n + 1) (int 0) (int len)
      [.assign (.element n (.var (n + 1))) (value (some (n + 1)))]]

def readInput (site : Site) (i : VarId) (position target : Formula) : List Code :=
  [.assign (.var i) position, .assign target (.element site.input (.var i))]

def input (site : Site) (n : VarId) : Extent → List Code
  | .scalar _ => readInput site (n + 1) (.var site.index) (.var n)
  | .vector _ len => .define n :: (List.range len).flatMap fun i =>
    readInput site (n + 1 + i) (.sourceIndex site i) (.element n (int i))

def reduce (n : VarId) (kind : Reduction) (x : Operand) : List Code :=
  [.assign (.var n) (.element x.var (int 0)),
    .loop (n + 1) (int 1) (int x.extent.len)
      [.assign (.var n) (.binary kind.operator (.var n) (.operand (some (n + 1)) x))]]

/-- The code of one step, which leaves its result in the variable `n`. -/
def line (site : Site) (done : List Operand) (n : VarId) (l : Line) : List Code :=
  match l.step with
  | .literal rank => [.assign (.var n) (.entry (site.firstTable + rank) (.var site.index))]
  | .unary op x => elementwise n l.extent fun e => .unary op (.operand e (done.getD x default))
  | .binary op x y => elementwise n l.extent fun e =>
    .binary op (.operand e (done.getD x default)) (.operand e (done.getD y default))
  | .input => input site n l.extent
  | .reduce kind x => reduce n kind (done.getD x default)
  | .activate name x => [.assign (.var n) (.activate name (.var (done.getD x default).var))]

end Code

/-- The types of the variables that the code of a step needs, that of its result first. -/
def Line.locals (l : Line) : List Ty :=
  match l.step, l.extent with
  | .literal _, x | .activate _ _, x => [x.ty]
  | .unary _ _, .scalar s | .binary _ _ _, .scalar s => [.scalar s]
  | .unary _ _, .vector s n | .binary _ _ _, .vector s n => [.vector s (some n), .int]
  | .input, .scalar s => [.scalar s, .int]
  | .input, .vector s n => .vector s (some n) :: List.replicate n .int
  | .reduce _ _, x => [x.ty, .int]

theorem Line.locals_zero (l : Line) : l.locals[0]? = some l.extent.ty := by
  obtain ⟨step, extent⟩ := l
  cases step <;> cases extent <;> rfl

namespace Recipe

def locals (r : Recipe) : List Ty := r.flatMap Line.locals

/-- Where the results of the steps are found, if the variables start with number `n`. -/
def operands (n : VarId) : Recipe → List Operand
  | [] => []
  | l :: rest => ⟨n, l.extent⟩ :: operands (n + l.locals.length) rest

def code (site : Site) (done : List Operand) (n : VarId) : Recipe → List Code
  | [] => []
  | l :: rest =>
    Code.line site done n l ++
      code site (done ++ [⟨n, l.extent⟩]) (n + l.locals.length) rest

theorem map_extent_operands (r : Recipe) (n : VarId) :
    (r.operands n).map (·.extent) = r.map (·.extent) := by
  induction r generalizing n with
  | nil => rfl
  | cons l rest ih => simp [operands, ih]

end Recipe

/-- The loop of an ensemble, whose variables start with number `n`. -/
def Code.ensemble (e : Ensemble) (site : VarId → Site) (recipe : Recipe) (output n : VarId) :
    Code :=
  .loop n (.int e.start) (.int e.stop)
    (recipe.code (site n) [] (n + 1) ++
      [.assign (.element output (.var n))
        (.var ((recipe.operands (n + 1)).getLastD default).var)])

/-- What a variable with a numbered name is for. An accumulator is a temporary that a reduction is
folded into. -/
inductive Role where
  | temporary
  | accumulator
  | index
deriving DecidableEq

/-- What the variables of a step are for, in the order of `Line.locals`. -/
def Line.roles (l : Line) : List Role :=
  match l.step, l.extent with
  | .unary _ _, .vector _ _ | .binary _ _ _, .vector _ _ => [.temporary, .index]
  | .reduce _ _, _ => [.accumulator, .index]
  | .input, .scalar _ => [.temporary, .temporary]
  | .input, .vector _ n => .temporary :: List.replicate n .temporary
  | _, _ => [.temporary]

def Recipe.roles (r : Recipe) : List Role := r.flatMap Line.roles

/-- The names of temporaries and of loop indices with consecutive numbers, so many of each. -/
def localNames (temporary index t i : Nat) : List String :=
  (List.range' temporary t).map (fun n => s!"t{n}") ++
    (List.range' index i).map fun n => s!"idx{n}"

namespace Role

/-- The names of variables with given roles, if these are the numbers of the next ones. -/
def names (temporary index : Nat) : List Role → List String
  | [] => []
  | .temporary :: rest | .accumulator :: rest =>
    s!"t{temporary}" :: names (temporary + 1) index rest
  | .index :: rest => s!"idx{index}" :: names temporary (index + 1) rest

theorem names_append (t i : Nat) (roles roles' : List Role) :
    names t i (roles ++ roles') = names t i roles ++
      names (t + roles.countP (· ≠ .index)) (i + roles.count .index) roles' := by
  induction roles generalizing t i with
  | nil => simp [names]
  | cons role roles ih =>
    cases role with
    | temporary => simp [names, ih, Nat.add_assoc, Nat.add_comm 1]
    | accumulator => simp [names, ih, Nat.add_assoc, Nat.add_comm 1]
    | index => simp [names, ih, Nat.add_assoc, Nat.add_comm 1]

theorem names_perm (t i : Nat) (roles : List Role) :
    (names t i roles).Perm
      (localNames t i (roles.countP (· ≠ .index)) (roles.count .index)) := by
  induction roles generalizing t i with
  | nil => simp [names, localNames]
  | cons role roles ih =>
    have hnext := (ih (t + 1) i).cons s!"t{t}"
    cases role with
    | temporary => simpa [names, localNames, List.range'_succ] using hnext
    | accumulator => simpa [names, localNames, List.range'_succ] using hnext
    | index =>
      have hnext := (ih t (i + 1)).cons s!"idx{i}"
      simp only [names, localNames, List.count_cons_self, List.range'_succ, List.map_cons]
      exact hnext.trans List.perm_middle.symm

end Role

/-- What emission adds to a kernel: nodes, and variables of the given types and roles, which get the
next names. -/
structure Build.Grows (b b' : Build) (tys : List Ty) (roles : List Role) : Prop where
  vars : ∃ new, b'.vars.toList = b.vars.toList ++ new ∧ new.map Variable.ty = tys ∧
    new.map Variable.name = Role.names b.temporaries b.indices roles
  temporaries : b'.temporaries = b.temporaries + roles.countP (· ≠ .index)
  indices : b'.indices = b.indices + roles.count .index
  nodes : Arena.Extends b.nodes b'.nodes
  tables : b'.tables = b.tables

namespace Build.Grows

variable {b b' b'' : Build} {tys tys' : List Ty} {roles roles' : List Role}

theorem refl (b : Build) : b.Grows b [] [] :=
  ⟨⟨[], (List.append_nil _).symm, rfl, rfl⟩, rfl, rfl, .refl _, rfl⟩

theorem trans (h : b.Grows b' tys roles) (h' : b'.Grows b'' tys' roles') :
    b.Grows b'' (tys ++ tys') (roles ++ roles') := by
  obtain ⟨new, hvars, htys, hnames⟩ := h.vars
  obtain ⟨new', hvars', htys', hnames'⟩ := h'.vars
  refine ⟨⟨new ++ new', ?_, ?_, ?_⟩, ?_, ?_, fun id n hn => h'.nodes id n (h.nodes id n hn),
    h'.tables.trans h.tables⟩
  · rw [hvars', hvars, List.append_assoc]
  · rw [List.map_append, htys, htys']
  · rw [List.map_append, hnames, hnames', h.temporaries, h.indices, Role.names_append]
  · rw [h'.temporaries, h.temporaries, List.countP_append, Nat.add_assoc]
  · rw [h'.indices, h.indices, List.count_append, Nat.add_assoc]

theorem types (h : b.Grows b' tys roles) :
    b'.vars.toList.map Variable.ty = b.vars.toList.map Variable.ty ++ tys := by
  obtain ⟨new, hvars, rfl, _⟩ := h.vars
  rw [hvars, List.map_append]

theorem size (h : b.Grows b' tys roles) : b'.vars.size = b.vars.size + tys.length := by
  have := congrArg List.length h.types
  simpa using this

end Build.Grows

namespace Emit

/-- Emission that does the same whatever tables there are, and leaves them as they are. -/
def Blind {α : Type} (x : Emit α) (b : Build) : Prop :=
  ∀ tables : Array Table, x { b with tables } = ((x b).1, { (x b).2 with tables })

/-- Emission that adds variables of the given types and roles, gives a result of which `Q` holds,
and does not look at tables. -/
structure Emits {α : Type} (x : Emit α) (b : Build) (tys : List Ty) (roles : List Role)
    (Q : Array Node → α → Prop) : Prop where
  grows : b.Grows (x b).2 tys roles
  holds : Q (x b).2.nodes (x b).1
  blind : Blind x b

namespace Emits

variable {α β : Type} {b : Build} {x : Emit α} {f : α → Emit β} {tys tys' : List Ty}
  {roles roles' : List Role} {P : Array Node → α → Prop} {Q : Array Node → β → Prop}

theorem bind (hx : Emits x b tys roles P)
    (hf : ∀ a b', b.Grows b' tys roles → P b'.nodes a → Emits (f a) b' tys' roles' Q) :
    Emits (x >>= f) b (tys ++ tys') (roles ++ roles') Q := by
  have hnext := hf (x b).1 (x b).2 hx.grows hx.holds
  refine ⟨hx.grows.trans hnext.grows, hnext.holds, fun tables => ?_⟩
  change f (x { b with tables }).1 (x { b with tables }).2 = _
  rw [hx.blind tables]
  exact hnext.blind tables

/-- As `bind`, where the first part adds no variables. -/
theorem step (hx : Emits x b [] [] P)
    (hf : ∀ a b', b.Grows b' [] [] → P b'.nodes a → Emits (f a) b' tys roles Q) :
    Emits (x >>= f) b tys roles Q := hx.bind hf

/-- As `bind`, where the second part adds no variables. -/
theorem finish (hx : Emits x b tys roles P)
    (hf : ∀ a b', b.Grows b' tys roles → P b'.nodes a → Emits (f a) b' [] [] Q) :
    Emits (x >>= f) b tys roles Q := by
  have h := hx.bind hf
  rwa [List.append_nil, List.append_nil] at h

theorem pure {a : α} (h : P b.nodes a) : Emits (Pure.pure a) b [] [] P :=
  ⟨.refl b, h, fun _ => rfl⟩

theorem bind_pure {f : α → β} (hx : Emits x b tys roles P)
    (h : ∀ a b', b.Grows b' tys roles → P b'.nodes a → Q b'.nodes (f a)) :
    Emits (x >>= fun a => Pure.pure (f a)) b tys roles Q :=
  hx.finish fun a b' hg hp => pure (h a b' hg hp)

end Emits

theorem emits_push {b : Build} {n : Node} {φ : Formula}
    (h : n.formula? (formulaOf b.nodes) = some φ) :
    Emits (push n) b [] [] fun nodes id => formulaOf nodes id = some φ := by
  have hext : Arena.Extends b.nodes (b.nodes.push n) := fun id m hm => push_some hm n
  have hlt : ∀ x ∈ n.operands, x < b.nodes.size := by
    intro x hx
    obtain ⟨ψ, hψ⟩ := Node.formula?_operand h hx
    exact lt_of_formulaOf hψ
  refine ⟨⟨⟨[], (List.append_nil _).symm, rfl, rfl⟩, rfl, rfl, hext, rfl⟩, ?_, fun _ => rfl⟩
  change formulaOf (b.nodes.push n) b.nodes.size = some φ
  rw [formulaOf_eq (n := n) (by simp) hlt]
  exact Node.formula?_mono (fun x _ ψ hψ => formulaOf_mono hext hψ) h

theorem emits_var (b : Build) (v : VarId) :
    Emits (var v) b [] [] fun nodes id => formulaOf nodes id = some (.var v) := emits_push rfl

theorem emits_int (b : Build) (n : Int) :
    Emits (int n) b [] [] fun nodes id => formulaOf nodes id = some (.int n) := emits_push rfl

theorem emits_temporary (b : Build) (ty : Ty) :
    Emits (temporary ty) b [ty] [.temporary] fun _ v => v = b.vars.size :=
  ⟨⟨⟨[_], Array.toList_push, rfl, rfl⟩, rfl, rfl, .refl _, rfl⟩, rfl, fun _ => rfl⟩

theorem emits_accumulator (b : Build) (ty : Ty) :
    Emits (temporary ty) b [ty] [.accumulator] fun _ v => v = b.vars.size :=
  ⟨⟨⟨[_], Array.toList_push, rfl, rfl⟩, rfl, rfl, .refl _, rfl⟩, rfl, fun _ => rfl⟩

theorem emits_loopIndex (b : Build) :
    Emits loopIndex b [.int] [.index] fun _ v => v = b.vars.size :=
  ⟨⟨⟨[_], Array.toList_push, rfl, rfl⟩, rfl, rfl, .refl _, rfl⟩, rfl, fun _ => rfl⟩

theorem emits_assign {b : Build} {lhs : Node} {rhs : NodeId} {φ ψ : Formula}
    (hl : lhs.formula? (formulaOf b.nodes) = some φ) (hr : formulaOf b.nodes rhs = some ψ) :
    Emits (assign lhs rhs) b [] [] fun nodes s => s.code? nodes = some (.assign φ ψ) := by
  refine (emits_push hl).step fun l b' hg hl => Emits.pure ?_
  simp [Stmt.code?, hl, formulaOf_mono hg.nodes hr]

theorem emits_loop {b : Build} {body : List Stmt} {cs : List Code} (index : VarId)
    (start stop : Int) (h : codesOf b.nodes body = some cs) :
    Emits (loop index start stop body) b [] [] fun nodes s =>
      s.code? nodes = some (.loop index (.int start) (.int stop) cs) := by
  refine (emits_int b start).step fun i b₁ h₁ hi => ?_
  refine (emits_int b₁ stop).step fun j b₂ h₂ hj => Emits.pure ?_
  simp [Stmt.code?, formulaOf_mono h₂.nodes hi, hj,
    codesOf_mono h₂.nodes body (codesOf_mono h₁.nodes body h)]

theorem emits_operand (b : Build) (element : Option VarId) (x : Operand) :
    Emits (operand element x) b [] [] fun nodes id =>
      formulaOf nodes id = some (.operand element x) := by
  obtain ⟨v, extent⟩ := x
  cases element with
  | none => exact emits_var b v
  | some e =>
    cases extent with
    | scalar s => exact emits_var b v
    | vector s n =>
      refine (emits_var b e).step fun i b' _ hi => emits_push ?_
      simp [Node.formula?, hi, Formula.operand]

/-- What is emitted for a step: its result is in the first new variable, and the statements read as
the given code. -/
def Leaves (n : VarId) (cs : List Code) (nodes : Array Node) (r : VarId × List Stmt) : Prop :=
  r.1 = n ∧ codesOf nodes r.2 = some cs

theorem emits_elementwise_scalar {b : Build} {value : Option VarId → Emit NodeId}
    {φ : Option VarId → Formula}
    (h : ∀ e b', Emits (value e) b' [] [] fun nodes id => formulaOf nodes id = some (φ e))
    (s : Scalar) :
    Emits (elementwise (.scalar s) value) b [.scalar s] [.temporary]
      (Leaves b.vars.size (Code.elementwise b.vars.size (.scalar s) φ)) := by
  refine (emits_temporary b _).bind fun t b₁ _ ht => ?_
  subst ht
  refine (h none b₁).step fun rhs b₂ _ hrhs => ?_
  refine (emits_assign (φ := .var b.vars.size) rfl hrhs).step fun s b₃ _ hs => Emits.pure ⟨rfl, ?_⟩
  exact codesOf_cons hs rfl

theorem emits_elementwise_vector {b : Build} {value : Option VarId → Emit NodeId}
    {φ : Option VarId → Formula}
    (h : ∀ e b', Emits (value e) b' [] [] fun nodes id => formulaOf nodes id = some (φ e))
    (s : Scalar) (n : Nat) :
    Emits (elementwise (.vector s n) value) b [.vector s (some n), .int] [.temporary, .index]
      (Leaves b.vars.size (Code.elementwise b.vars.size (.vector s n) φ)) := by
  refine (emits_temporary b _).bind fun t b₁ g₁ ht => ?_
  refine (emits_loopIndex b₁).bind fun e b₂ _ he => ?_
  rw [g₁.size] at he
  subst ht he
  refine (h _ b₂).step fun rhs b₃ _ hrhs => ?_
  refine (emits_var b₃ _).step fun i b₄ g₄ hi => ?_
  refine (emits_assign (φ := .element b.vars.size (.var (b.vars.size + 1)))
    (by simp [Node.formula?, hi]) (formulaOf_mono g₄.nodes hrhs)).step fun s b₅ _ hs => ?_
  refine (emits_loop _ 0 n (codesOf_cons hs rfl)).step fun l b₆ _ hl => Emits.pure ⟨rfl, ?_⟩
  exact codesOf_cons (by rw [Stmt.code?]) (codesOf_cons hl rfl)

theorem emits_elementwise {b : Build} {l : Line} {value : Option VarId → Emit NodeId}
    {φ : Option VarId → Formula}
    (h : ∀ e b', Emits (value e) b' [] [] fun nodes id => formulaOf nodes id = some (φ e))
    (hl : (∃ op x, l.step = .unary op x) ∨ ∃ op x y, l.step = .binary op x y) :
    Emits (elementwise l.extent value) b l.locals l.roles
      (Leaves b.vars.size (Code.elementwise b.vars.size l.extent φ)) := by
  obtain ⟨step, extent⟩ := l
  obtain ⟨op, x, rfl⟩ | ⟨op, x, y, rfl⟩ := hl
  all_goals
    cases extent with
    | scalar s => exact emits_elementwise_scalar h s
    | vector s n => exact emits_elementwise_vector h s n

theorem emits_literal (b : Build) (site : Site) (rank : Nat) (ty : Ty) :
    Emits (literal site rank ty) b [ty] [.temporary] (Leaves b.vars.size
      [.assign (.var b.vars.size) (.entry (site.firstTable + rank) (.var site.index))]) := by
  refine (emits_var b site.index).step fun i b₁ g₁ hi => ?_
  refine (emits_push (φ := .entry (site.firstTable + rank) (.var site.index))
    (by simp [Node.formula?, hi])).step fun rhs b₂ g₂ hrhs => ?_
  refine (emits_temporary b₂ ty).bind fun t b₃ g₃ ht => ?_
  rw [g₂.size, g₁.size] at ht
  subst ht
  refine (emits_assign (φ := .var b.vars.size) rfl (formulaOf_mono g₃.nodes hrhs)).step
    fun s b₄ _ hs => Emits.pure ⟨rfl, codesOf_cons hs rfl⟩

theorem emits_scaledIndex (b : Build) (site : Site) (stride : Int) :
    Emits (scaledIndex site stride) b [] [] fun nodes id =>
      formulaOf nodes id = some (.scaledIndex site stride) := by
  unfold scaledIndex Formula.scaledIndex
  split
  · exact emits_var b _
  · refine (emits_int b stride).step fun i b₁ _ hi => (emits_var b₁ _).step fun j b₂ g₂ hj => ?_
    exact emits_push (by simp [Node.formula?, formulaOf_mono g₂.nodes hi, hj])

theorem emits_sourceIndex (b : Build) (site : Site) (i : Nat) :
    Emits (sourceIndex site i) b [] [] fun nodes id =>
      formulaOf nodes id = some (.sourceIndex site i) := by
  unfold sourceIndex Formula.sourceIndex
  cases site.wiring with
  | affine stride =>
    simp only
    split
    · exact emits_int b _
    · refine (emits_scaledIndex b site stride).step fun j b₁ _ hj => ?_
      split
      · exact Emits.pure hj
      · refine (emits_int b₁ _).step fun k b₂ g₂ hk => emits_push ?_
        simp [Node.formula?, formulaOf_mono g₂.nodes hj, hk]
  | table t =>
    simp only
    refine (emits_var b _).step fun j b₁ _ hj => ?_
    refine (emits_push (φ := .entry t (.var site.index)) (by simp [Node.formula?, hj])).step
      fun first b₂ _ hfirst => ?_
    split
    · exact Emits.pure hfirst
    · refine (emits_int b₂ _).step fun k b₃ g₃ hk => emits_push ?_
      simp [Node.formula?, formulaOf_mono g₃.nodes hfirst, hk]

theorem emits_readInput {b : Build} {position : NodeId} {φ ψ : Formula} (site : Site)
    (target : Emit Node) (hφ : formulaOf b.nodes position = some φ)
    (hψ : ∀ b', Emits target b' [] [] fun nodes n => n.formula? (formulaOf nodes) = some ψ) :
    Emits (readInput site position target) b [.int] [.temporary] fun nodes ss =>
      codesOf nodes ss = some (Code.readInput site b.vars.size φ ψ) := by
  refine (emits_temporary b .int).bind fun i b₁ g₁ hi => ?_
  subst hi
  refine (emits_assign (φ := .var b.vars.size) rfl (formulaOf_mono g₁.nodes hφ)).step
    fun s b₂ _ hs => ?_
  refine (emits_var b₂ _).step fun j b₃ g₃ hj => ?_
  refine (emits_push (φ := .element site.input (.var b.vars.size))
    (by simp [Node.formula?, hj])).step fun rhs b₄ g₄ hrhs => ?_
  refine (hψ b₄).step fun lhs b₅ g₅ hlhs => ?_
  refine (emits_assign hlhs (formulaOf_mono g₅.nodes hrhs)).step fun s' b₆ g₆ hs' => Emits.pure ?_
  have hs₆ := code?_mono ((g₃.trans g₄).trans (g₅.trans g₆)).nodes s hs
  exact codesOf_cons hs₆ (codesOf_cons hs' rfl)

/-- The elements from `first` on are read one after the other, each with a variable of its own. -/
theorem emits_readInputs (site : Site) (t base : VarId) (count first : Nat) {b : Build}
    (hb : b.vars.size = base + first) :
    Emits ((List.range' first count).mapM fun k => do
      let source ← sourceIndex site k
      readInput site source (return .element t (← int k))) b
      (List.replicate count .int) (List.replicate count .temporary)
      fun nodes sss => codesOf nodes sss.flatten = some ((List.range' first count).flatMap fun i =>
        Code.readInput site (base + i) (.sourceIndex site i) (.element t (.int i))) := by
  induction count generalizing first b with
  | zero => exact Emits.pure rfl
  | succ count ih =>
    rw [List.range'_succ, List.mapM_cons]
    have hread : Emits (do
        let source ← sourceIndex site first
        readInput site source (return .element t (← int first))) b [.int] [.temporary]
        fun nodes ss => codesOf nodes ss = some (Code.readInput site b.vars.size
          (.sourceIndex site first) (.element t (.int first))) := by
      refine (emits_sourceIndex b site first).step fun j b₁ g₁ hj => ?_
      have hread := emits_readInput (b := b₁) (ψ := .element t (.int first)) site
        (return .element t (← int first)) hj
        fun b' => (emits_int b' first).step fun k b'' _ hk =>
          Emits.pure (by simp [Node.formula?, hk])
      rwa [g₁.size] at hread
    refine hread.bind fun ss b₁ g₁ hss => ?_
    refine (ih (first + 1) (b := b₁) (by rw [g₁.size, hb]; simp; omega)).bind_pure
      fun rest b₂ g₂ hrest => ?_
    rw [List.flatten_cons, List.flatMap_cons, ← hb]
    exact codesOf_append (codesOf_mono g₂.nodes ss hss) hrest

theorem emits_input (b : Build) (site : Site) (extent : Extent) :
    Emits (input site extent) b (Line.locals ⟨.input, extent⟩) (Line.roles ⟨.input, extent⟩)
      (Leaves b.vars.size (Code.input site b.vars.size extent)) := by
  cases extent with
  | scalar s =>
    refine (emits_temporary b _).bind fun t b₁ g₁ ht => ?_
    subst ht
    refine (emits_var b₁ _).step fun i b₂ g₂ hi => ?_
    have hread := emits_readInput (b := b₂) (ψ := .var b.vars.size) site
      (return .var b.vars.size) hi fun b' => Emits.pure rfl
    rw [g₂.size, g₁.size] at hread
    exact hread.bind_pure fun ss b₃ _ hss => ⟨rfl, hss⟩
  | vector s n =>
    refine (emits_temporary b _).bind fun t b₁ g₁ ht => ?_
    subst ht
    have hreads := emits_readInputs site b.vars.size (b.vars.size + 1) n 0 (b := b₁) g₁.size
    rw [← List.range_eq_range'] at hreads
    refine hreads.bind_pure fun sss b₂ _ hsss => ⟨rfl, ?_⟩
    exact codesOf_cons (by rw [Stmt.code?]) hsss

theorem emits_reduce (b : Build) (kind : Reduction) (x : Operand) (ty : Ty) :
    Emits (reduce kind x ty) b [ty, .int] [.accumulator, .index]
      (Leaves b.vars.size (Code.reduce b.vars.size kind x)) := by
  refine (emits_accumulator b ty).bind fun acc b₁ g₁ hacc => ?_
  refine (emits_int b₁ 0).step fun origin b₂ g₂ ho => ?_
  refine (emits_push (φ := .element x.var (.int 0)) (by simp [Node.formula?, ho])).step
    fun first b₃ g₃ hfirst => ?_
  refine (emits_assign (φ := .var acc) rfl hfirst).step fun s b₄ g₄ hs => ?_
  refine (emits_loopIndex b₄).bind fun e b₅ g₅ he => ?_
  rw [g₄.size, g₃.size, g₂.size, g₁.size] at he
  subst hacc he
  refine (emits_var b₅ _).step fun l b₆ g₆ hl => ?_
  refine (emits_operand b₆ _ x).step fun r b₇ g₇ hr => ?_
  refine (emits_push (φ := .binary kind.operator (.var b.vars.size)
    (.operand (some (b.vars.size + 1)) x))
    (by simp [Node.formula?, formulaOf_mono g₇.nodes hl, hr])).step fun rhs b₈ g₈ hrhs => ?_
  refine (emits_assign (φ := .var b.vars.size) rfl hrhs).step fun s' b₉ g₉ hs' => ?_
  refine (emits_loop _ 1 x.extent.len (codesOf_cons hs' rfl)).step fun body b' g' hbody => ?_
  have hg := g₅.trans (g₆.trans (g₇.trans (g₈.trans (g₉.trans g'))))
  exact Emits.pure ⟨rfl, codesOf_cons (code?_mono hg.nodes s hs) (codesOf_cons hbody rfl)⟩

theorem emits_activate (b : Build) (name : String) (x : Operand) (ty : Ty) :
    Emits (activate name x ty) b [ty] [.temporary] (Leaves b.vars.size
      [.assign (.var b.vars.size) (.activate name (.var x.var))]) := by
  refine (emits_var b x.var).step fun i b₁ g₁ hi => ?_
  refine (emits_push (φ := .activate name (.var x.var)) (by simp [Node.formula?, hi])).step
    fun rhs b₂ g₂ hrhs => ?_
  refine (emits_temporary b₂ ty).bind fun t b₃ g₃ ht => ?_
  rw [g₂.size, g₁.size] at ht
  subst ht
  refine (emits_assign (φ := .var b.vars.size) rfl (formulaOf_mono g₃.nodes hrhs)).step
    fun s b₄ _ hs => Emits.pure ⟨rfl, codesOf_cons hs rfl⟩

theorem emits_line (b : Build) (site : Site) (done : List Operand) (l : Line) :
    Emits (line site done l) b l.locals l.roles
      (Leaves b.vars.size (Code.line site done b.vars.size l)) := by
  obtain ⟨step, extent⟩ := l
  cases step with
  | literal rank => exact emits_literal b site rank extent.ty
  | unary op x =>
    have hvalue : ∀ e b', Emits (do push (.unary op (← operand e (done.getD x default)))) b' [] []
        fun nodes id =>
          formulaOf nodes id = some (.unary op (.operand e (done.getD x default))) := by
      intro e b'
      refine (emits_operand b' e _).step fun i b₁ _ hi => emits_push ?_
      simp [Node.formula?, hi]
    exact emits_elementwise (l := ⟨.unary op x, extent⟩) hvalue (.inl ⟨op, x, rfl⟩)
  | binary op x y =>
    have hvalue : ∀ e b', Emits (do
          let x ← operand e (done.getD x default)
          let y ← operand e (done.getD y default)
          push (.binary op x y)) b' [] []
        fun nodes id => formulaOf nodes id = some
          (.binary op (.operand e (done.getD x default)) (.operand e (done.getD y default))) := by
      intro e b'
      refine (emits_operand b' e _).step fun i b₁ _ hi => ?_
      refine (emits_operand b₁ e _).step fun j b₂ g₂ hj => emits_push ?_
      simp [Node.formula?, formulaOf_mono g₂.nodes hi, hj]
    exact emits_elementwise (l := ⟨.binary op x y, extent⟩) hvalue (.inr ⟨op, x, y, rfl⟩)
  | input => exact emits_input b site extent
  | reduce kind x => exact emits_reduce b kind _ extent.ty
  | activate name x => exact emits_activate b name _ extent.ty

theorem emits_lines (b : Build) (site : Site) (done : List Operand) (r : Recipe) :
    Emits (lines site done r) b r.locals r.roles fun nodes p =>
      p.1 = done ++ r.operands b.vars.size ∧
        codesOf nodes p.2 = some (r.code site done b.vars.size) := by
  induction r generalizing b done with
  | nil => exact Emits.pure ⟨by simp [Recipe.operands], rfl⟩
  | cons l rest ih =>
    rw [Recipe.locals, Recipe.roles, List.flatMap_cons, List.flatMap_cons]
    refine (emits_line b site done l).bind fun p b₁ g₁ hp => ?_
    obtain ⟨t, here⟩ := p
    obtain ⟨rfl, hhere⟩ := hp
    refine (ih b₁ _).bind_pure fun q b₂ g₂ hq => ?_
    obtain ⟨all, below⟩ := q
    obtain ⟨rfl, hbelow⟩ := hq
    rw [g₁.size] at hbelow ⊢
    exact ⟨by simp [Recipe.operands], codesOf_append (codesOf_mono g₂.nodes here hhere) hbelow⟩

/-- The loop of an ensemble is emitted with its variables in order: the index, then those of the
recipe. -/
theorem emits_ensemble (b : Build) (e : Ensemble) (site : VarId → Site) (r : Recipe)
    (output : VarId) :
    Emits (ensemble e site r output) b (.int :: r.locals) (.index :: r.roles) fun nodes s =>
      s.code? nodes = some (Code.ensemble e site r output b.vars.size) := by
  refine (emits_loopIndex b).bind fun index b₁ g₁ hindex => ?_
  subst hindex
  have hlines := emits_lines b₁ (site b.vars.size) [] r
  rw [g₁.size] at hlines
  refine hlines.finish fun p b₂ g₂ hp => ?_
  obtain ⟨all, body⟩ := p
  obtain ⟨rfl, hbody⟩ := hp
  refine (emits_var b₂ _).step fun i b₃ g₃ hi => (emits_var b₃ _).step fun rhs b₄ g₄ hrhs => ?_
  refine (emits_assign (φ := .element output (.var b.vars.size))
    (by simp [Node.formula?, formulaOf_mono g₄.nodes hi]) hrhs).step fun last b₅ g₅ hlast => ?_
  have hg := g₃.trans (g₄.trans g₅)
  exact emits_loop _ e.start e.stop
    (codesOf_append (codesOf_mono hg.nodes body hbody) (codesOf_cons hlast rfl))

end Emit

/-- The temporaries among the variables of a step: one for its result, and one for the position of
each input that it reads. -/
def Line.temporaries (l : Line) : Nat :=
  match l.step, l.extent with
  | .input, .scalar _ => 2
  | .input, .vector _ n => n + 1
  | _, _ => 1

/-- The loop indices among the variables of a step. -/
def Line.indices (l : Line) : Nat :=
  match l.step, l.extent with
  | .unary _ _, .vector _ _ | .binary _ _ _, .vector _ _ | .reduce _ _, _ => 1
  | _, _ => 0

/-- The counts of a step are those of its roles. -/
theorem Line.count_roles (l : Line) :
    l.roles.countP (· ≠ .index) = l.temporaries ∧ l.roles.count .index = l.indices := by
  obtain ⟨step, extent⟩ := l
  cases step <;> cases extent <;>
    simp [roles, temporaries, indices, List.countP_replicate, List.count_replicate]

theorem Recipe.count_roles (r : Recipe) :
    r.roles.countP (· ≠ .index) = (r.map Line.temporaries).sum ∧
      r.roles.count .index = (r.map Line.indices).sum := by
  induction r with
  | nil => simp [roles]
  | cons l r ih =>
    rw [roles, List.flatMap_cons, ← roles, List.countP_append, List.count_append, ih.1, ih.2,
      l.count_roles.1, l.count_roles.2]
    simp

end Synapse
