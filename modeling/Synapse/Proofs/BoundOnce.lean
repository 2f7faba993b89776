import Mathlib.Tactic
import Synapse.Proofs.Bindings
import Synapse.Proofs.Names

namespace Synapse

namespace Role

/-- The name of a variable tells its role, except that accumulators are named as temporaries. -/
def Names : Role → String → Prop
  | temporary, name | accumulator, name => ∃ n : Nat, name = s!"t{n}"
  | index, name => ∃ n : Nat, name = s!"idx{n}"

theorem exists_of_names {t i j : Nat} {roles : List Role} {name : String}
    (h : (names t i roles)[j]? = some name) : ∃ role, roles[j]? = some role ∧ role.Names name := by
  induction roles generalizing t i j with
  | nil => simp [names] at h
  | cons role roles ih =>
    cases j with
    | zero =>
      refine ⟨role, rfl, ?_⟩
      cases role with
      | temporary => exact ⟨t, (Option.some.inj h).symm⟩
      | accumulator => exact ⟨t, (Option.some.inj h).symm⟩
      | index => exact ⟨i, (Option.some.inj h).symm⟩
    | succ j =>
      cases role with
      | temporary => exact ih h
      | accumulator => exact ih h
      | index => exact ih h

end Role

theorem Role.Names.stem_eq {role : Role} {name : String} (h : role.Names name)
    (hrole : role ≠ .index) : stem name = ['t'] := by
  cases role with
  | index => exact absurd rfl hrole
  | temporary =>
    obtain ⟨n, rfl⟩ := h
    exact stem_temporary n
  | accumulator =>
    obtain ⟨n, rfl⟩ := h
    exact stem_temporary n

/-- The variable is one of those that are declared for the loop. -/
def EnsembleLoop.Owns (c : EnsembleLoop) (v : VarId) : Prop :=
  c.index ≤ v ∧ v < c.index + c.vars.length

namespace Network

variable {net : Network} {input vector : VarId} {n v : Nat} {e : Ensemble} {c : EnsembleLoop}

theorem Renders.owns_index (h : net.Renders input n e c) : c.Owns c.index := by
  have hpos : 0 < c.vars.length := h.length ▸ Nat.succ_pos _
  exact ⟨Nat.le_refl _, Nat.lt_add_of_pos_right hpos⟩

theorem Renders.owns_of_mem_writes_body (h : net.Renders input n e c)
    (hv : v ∈ Code.allWrites c.body) : c.Owns v := by
  rw [EnsembleLoop.Owns, h.index]
  exact (h.writes_body hv).imp_left Nat.le_of_lt

theorem Renders.of_mem_writes (h : net.Renders input n e c) (hv : v ∈ (c.code vector).writes) :
    v = vector ∨ c.Owns v := by
  simp only [EnsembleLoop.code, Code.writes, List.mem_cons] at hv
  rcases hv with rfl | hv
  · exact .inr h.owns_index
  · obtain ⟨d, hd, hv⟩ := Code.mem_allWrites.1 hv
    rcases List.mem_append.1 hd with hd | hd
    · exact .inr (h.owns_of_mem_writes_body (Code.mem_allWrites.2 ⟨d, hd, hv⟩))
    · rw [List.mem_singleton.1 hd] at hv
      exact .inl (List.mem_singleton.1 hv)

/-- The loop of an ensemble binds its index, and then what its body binds. -/
theorem bindings_ensemble (c : EnsembleLoop) {scope : List VarId} (hv : v ≠ vector) :
    (c.code vector).bindings v scope =
      (if c.index = v then [⟨scope, c.code vector⟩] else []) ++
        Code.allBindings v (scope ++ [c.index]) c.body := by
  have hstore : v ∉ Code.allWrites [.assign (.element vector (.var c.index)) c.result] := by
    simpa [Code.allWrites, Code.writes, Formula.target?] using hv
  rw [EnsembleLoop.code, Code.bindings, Code.allBindings_left hstore]

theorem Renders.bindings_index (h : net.Renders input n e c) (hvector : vector < n) :
    (c.code vector).bindings c.index [] = [⟨[], c.code vector⟩] := by
  have hbody : c.index ∉ Code.allWrites c.body := fun hmem =>
    Nat.lt_irrefl n (h.writes_body (h.index ▸ hmem)).1
  rw [bindings_ensemble c (h.index ▸ hvector.ne'), if_pos rfl, Code.allBindings_eq_nil _ _ hbody,
    List.append_nil]

theorem Renders.bindings_body (h : net.Renders input n e c) (hvector : vector < n) (hv : n < v) :
    (c.code vector).bindings v [] = Code.allBindings v [n] c.body := by
  rw [bindings_ensemble c (hvector.trans hv).ne', h.index, if_neg hv.ne, List.nil_append,
    List.nil_append]

section

-- In what follows, only the loop itself binds the variables that are declared for it.
variable {f : VarId → List Binding} (hf : ∀ w, c.Owns w → f w = (c.code vector).bindings w [])
include hf

theorem Renders.bound_index (h : net.Renders input n e c) (hvector : vector < n) (ty : Ty) :
    Bound f n .index ty := by
  have hindex := (hf c.index h.owns_index).trans (h.bindings_index hvector)
  obtain rfl := h.index
  exact .index hindex

theorem Renders.eq_of_bindings_body (h : net.Renders input n e c) (hvector : vector < n)
    (hv : Code.allBindings v [n] c.body ≠ []) : f v = Code.allBindings v [n] c.body := by
  have hwrites := Code.mem_allWrites_of_bindings hv
  rw [hf v (h.owns_of_mem_writes_body hwrites), h.bindings_body hvector (h.writes_body hwrites).1]

/-- The variables of an ensemble are bound by its loop. -/
theorem Renders.bindsAll (h : net.Renders input n e c) (hvector : vector < n) :
    BindsAll f n (.index :: (net.recipe e.representative).roles) (c.vars.map Variable.ty) := by
  obtain ⟨site, rfl, hindex, hbody⟩ := h.body
  have hdone : ∀ x ∈ ([] : List Operand), x.var < n + 1 := by simp
  have hrecipe := Recipe.bindsAll_code (Nat.lt_succ_of_lt h.reads) (hindex ▸ Nat.lt_succ_self n)
    hdone (net.recipe e.representative) [n]
  rw [← hbody] at hrecipe
  rw [h.types]
  exact .cons (h.bound_index hf hvector .int)
    (hrecipe.lift fun w hw => h.eq_of_bindings_body hf hvector hw)

theorem Renders.bound (h : net.Renders input n e c) (hvector : vector < n)
    {j : Nat} {x : Variable} (hx : c.vars[j]? = some x) :
    ∃ role : Role, role.Names x.name ∧ Bound f (n + j) role x.ty := by
  obtain ⟨t, i, hnames⟩ := h.names
  have hname : (c.vars.map Variable.name)[j]? = some x.name := by simp [hx]
  rw [hnames] at hname
  obtain ⟨role, hrole, hname⟩ := Role.exists_of_names hname
  exact ⟨role, hname, (h.bindsAll hf hvector).bound hrole (by simp [hx])⟩

theorem Renders.reduces (h : net.Renders input n e c) (hvector : vector < n)
    {root : NodeId} {r : Recipe} (hroot : net.forward? e.representative = some root)
    (hr : RecipeOf net root r) :
    net.Reduces f (net.order root) (List.range' n c.vars.length) := by
  have hindex := (h.bound_index hf hvector .int).accumulates_iff
  have hlength := h.length
  obtain ⟨site, rfl, hsite, hbody⟩ := h.body
  rw [hr.recipe_eq hroot] at hbody hlength
  have hdone : ∀ x ∈ ([] : List Operand), x.var < n + 1 := by simp
  have hrecipe := reduces_code hr (Nat.lt_succ_of_lt h.reads) (hsite ▸ Nat.lt_succ_self n) hdone [n]
  rw [← hbody] at hrecipe
  rw [hlength, List.range'_succ, Reduces, List.filter_cons_of_neg (by simpa using hindex)]
  refine hrecipe.lift (fun w hw => ?_) fun w hw => h.eq_of_bindings_body hf hvector hw
  have hw := List.mem_range'_1.1 hw
  have howns : c.Owns w := by
    rw [EnsembleLoop.Owns, h.index, hlength]
    exact ⟨(Nat.lt_of_succ_le hw.1).le, by grind⟩
  rw [hf w howns, h.bindings_body hvector hw.1]

end

theorem RendersAll.bindings {es : List Ensemble} {cs : List EnsembleLoop}
    (h : net.RendersAll input n es cs) (hvector : vector < n) (hc : c ∈ cs) (hv : c.Owns v) :
    Code.allBindings v [] (cs.map (·.code vector)) = (c.code vector).bindings v [] := by
  induction h with
  | nil => cases hc
  | @cons n e d es cs hd hrest ih =>
    rw [List.map_cons, Code.allBindings]
    rcases List.mem_cons.1 hc with rfl | hc
    · have hunbound : v ∉ Code.allWrites (cs.map (·.code vector)) := by
        intro hmem
        obtain ⟨d', hd', hmem⟩ := Code.mem_allWrites.1 hmem
        obtain ⟨c', hc', rfl⟩ := List.mem_map.1 hd'
        obtain ⟨m, e', hm, hle, _⟩ := hrest.block hc'
        have hindex := hd.index
        have hindex' := hm.index
        have hwrites := hm.of_mem_writes hmem
        grind [EnsembleLoop.Owns]
      rw [Code.allBindings_eq_nil _ _ hunbound, List.append_nil]
    · have hunbound : v ∉ (d.code vector).writes := by
        intro hmem
        obtain ⟨m, e', hm, hle, _⟩ := hrest.block hc
        have hindex := hd.index
        have hindex' := hm.index
        have hwrites := hd.of_mem_writes hmem
        grind [EnsembleLoop.Owns]
      rw [Code.bindings_eq_nil _ _ hunbound, List.nil_append]
      exact ih (hvector.trans_le (Nat.le_add_right _ _)) hc

theorem RendersAll.getElem?_vars {es : List Ensemble} {cs : List EnsembleLoop}
    (h : net.RendersAll input n es cs) (hc : c ∈ cs) {j : Nat} {x : Variable}
    (hx : c.vars[j]? = some x) :
    ∃ i : Nat, c.index + j = n + i ∧ (cs.flatMap (·.vars))[i]? = some x := by
  induction h with
  | nil => cases hc
  | @cons n e d es cs hd _ ih =>
    rw [List.flatMap_cons]
    rcases List.mem_cons.1 hc with rfl | hc
    · have hlt := (List.getElem?_eq_some_iff.1 hx).1
      exact ⟨j, by rw [hd.index], by rw [List.getElem?_append_left hlt, hx]⟩
    · obtain ⟨i, hi, hget⟩ := ih hc
      refine ⟨d.vars.length + i, by rw [hi, Nat.add_assoc], ?_⟩
      rw [List.getElem?_append_right (Nat.le_add_right _ _), Nat.add_sub_cancel_left, hget]

theorem RendersAll.owned {es : List Ensemble} {cs : List EnsembleLoop}
    (h : net.RendersAll input n es cs) {i : Nat} (hi : i < (cs.flatMap (·.vars)).length) :
    ∃ c ∈ cs, c.Owns (n + i) := by
  induction h generalizing i with
  | nil => simp at hi
  | @cons n e d es cs hd _ ih =>
    by_cases hlt : i < d.vars.length
    · refine ⟨d, List.mem_cons_self, ?_⟩
      rw [EnsembleLoop.Owns, hd.index]
      exact ⟨Nat.le_add_right n i, Nat.add_lt_add_left hlt n⟩
    · rw [List.flatMap_cons, List.length_append] at hi
      have hsplit : n + i = n + d.vars.length + (i - d.vars.length) := by
        rw [Nat.add_assoc, Nat.add_sub_cancel' (Nat.le_of_not_lt hlt)]
      obtain ⟨c, hc, howns⟩ := ih (i := i - d.vars.length) (by omega)
      exact ⟨c, List.mem_cons_of_mem _ hc, hsplit ▸ howns⟩

section

variable {last : LayerId} {qs : List (Layer × LayerId)} {ts : List LayerCode} {t : LayerCode}

/-- A loop fills a vector that is declared before it. -/
theorem LaysOut.vector_lt (h : net.LaysOut last input n qs ts) (hn : 2 ≤ n) (ht : t ∈ ts)
    (hc : c ∈ t.loops) : t.vector < c.index := by
  induction h with
  | nil => cases ht
  | @cons input n q head es rest ts _ hplaces _ hloops _ ih =>
    rcases List.mem_cons.1 ht with rfl | ht
    · obtain ⟨m, e, hm, hle, _⟩ := hloops.block hc
      have hindex := hm.index
      have hvector := hplaces.vector
      grind
    · exact ih (by omega) ht

theorem of_mem_writes_layer (h : ∀ c ∈ t.loops, ∃ input m e, net.Renders input m e c)
    (hv : v ∈ Code.allWrites t.code) : v = t.vector ∨ ∃ c ∈ t.loops, c.Owns v := by
  obtain ⟨d, hd, hv⟩ := Code.mem_allWrites.1 hv
  rcases LayerCode.of_mem_code hd with rfl | ⟨c, hc, rfl⟩
  · exact .inl (List.mem_singleton.1 hv)
  · obtain ⟨input, m, e, hm⟩ := h c hc
    exact (hm.of_mem_writes hv).imp_right fun howns => ⟨c, hc, howns⟩

/-- The code of layers after the variable `n` writes the output, or variables from there on. -/
theorem LaysOut.le_of_mem_writes (h : net.LaysOut last input n qs ts) (hn : 2 ≤ n)
    (hv : v ∈ Code.allWrites (ts.flatMap LayerCode.code)) : v = 1 ∨ n ≤ v := by
  obtain ⟨d, hd, hv⟩ := Code.mem_allWrites.1 hv
  obtain ⟨t, ht, hd⟩ := List.mem_flatMap.1 hd
  have hrenders : ∀ c ∈ t.loops, ∃ input m e, net.Renders input m e c := by
    intro c hc
    obtain ⟨input, m, e, hm, _⟩ := h.block hn ht hc
    exact ⟨input, m, e, hm⟩
  rcases of_mem_writes_layer hrenders (Code.mem_allWrites.2 ⟨d, hd, hv⟩) with rfl | ⟨c, hc, howns⟩
  · exact h.vector ht
  · obtain ⟨input, m, e, hm, hle, _⟩ := h.block hn ht hc
    exact .inr (hle.trans (hm.index ▸ howns.1))

theorem allBindings_layer (hv : v ≠ t.vector) :
    Code.allBindings v [] t.code = Code.allBindings v [] (t.loops.map (·.code t.vector)) := by
  rw [LayerCode.code]
  split
  · rfl
  · rw [Code.allBindings, Code.bindings, if_neg hv.symm, List.nil_append]

/-- What binds a variable of a loop stands in that loop. -/
theorem LaysOut.bindings (h : net.LaysOut last input n qs ts) (hn : 2 ≤ n) (ht : t ∈ ts)
    (hc : c ∈ t.loops) (hv : c.Owns v) :
    Code.allBindings v [] (ts.flatMap LayerCode.code) = (c.code t.vector).bindings v [] := by
  induction h with
  | nil => cases ht
  | @cons input n q head es rest ts _ hplaces _ hloops hrest ih =>
    have hlength := head.length_vars
    have hvector := hplaces.vector
    rw [List.flatMap_cons]
    rcases List.mem_cons.1 ht with rfl | ht
    · obtain ⟨m, e, hm, hle, hstop⟩ := hloops.block hc
      have hindex := hm.index
      have hne : v ≠ t.vector := by grind [EnsembleLoop.Owns]
      have hlater : v ∉ Code.allWrites (ts.flatMap LayerCode.code) := by
        intro hmem
        have hbound := hrest.le_of_mem_writes (by omega) hmem
        grind [EnsembleLoop.Owns]
      rw [Code.allBindings_left hlater, allBindings_layer hne]
      exact hloops.bindings (by grind) hc hv
    · obtain ⟨_, m, e, hm, hle, _⟩ := hrest.block (by omega) ht hc
      have hindex := hm.index
      have hearlier : v ∉ Code.allWrites head.code := by
        intro hmem
        have hrenders : ∀ c ∈ head.loops, ∃ input m e, net.Renders input m e c := by
          intro c hc
          obtain ⟨m, e, hm, _⟩ := hloops.block hc
          exact ⟨input, m, e, hm⟩
        rcases of_mem_writes_layer hrenders hmem with heq | ⟨c', hc', howns⟩
        · grind [EnsembleLoop.Owns]
        · obtain ⟨m', e', hm', _, hstop⟩ := hloops.block hc'
          have hindex' := hm'.index
          grind [EnsembleLoop.Owns]
      rw [Code.allBindings_right hearlier]
      exact ih (by omega) ht

/-- A variable is only filled in as a vector, or it is declared for one of the loops. -/
theorem LaysOut.fills_or_owned (h : net.LaysOut last input n qs ts) (hn : 2 ≤ n) {b : Binding}
    (hb : b ∈ Code.allBindings v [] (ts.flatMap LayerCode.code)) :
    b.Fills v ∨ ∃ t ∈ ts, ∃ c ∈ t.loops, c.Owns v := by
  obtain ⟨d, hd, hb⟩ := Code.mem_allBindings.1 hb
  obtain ⟨t, ht, hd⟩ := List.mem_flatMap.1 hd
  rcases LayerCode.of_mem_code hd with rfl | ⟨c, hc, rfl⟩
  · obtain ⟨rfl, rfl⟩ : t.vector = v ∧ b = ⟨[], .define t.vector⟩ := by
      simpa [Code.bindings] using hb
    exact .inl (.inl rfl)
  · obtain ⟨_, m, e, hm, _⟩ := h.block hn ht hc
    have howned : c.Owns v → b.Fills v ∨ ∃ t ∈ ts, ∃ c ∈ t.loops, c.Owns v :=
      fun howns => .inr ⟨t, ht, c, hc, howns⟩
    rw [EnsembleLoop.code, Code.bindings, Code.allBindings_append] at hb
    rcases List.mem_append.1 hb with hb | hb
    · split at hb
      case isTrue heq => exact howned (heq ▸ hm.owns_index)
      case isFalse => cases hb
    · rcases List.mem_append.1 hb with hb | hb
      · have hwrites := Code.mem_allWrites_of_bindings (List.ne_nil_of_mem hb)
        exact howned (hm.owns_of_mem_writes_body hwrites)
      · obtain ⟨rfl, rfl⟩ : t.vector = v ∧ b =
            ⟨[c.index], .assign (.element t.vector (.var c.index)) c.result⟩ := by
          simpa [Code.allBindings, Code.bindings, Formula.target?] using hb
        exact .inl (.inr ⟨_, _, rfl⟩)

/-- The variables of a kernel after its parameters are the vectors of layers and those of the
loops. -/
theorem LaysOut.layer_or_owned (h : net.LaysOut last input n qs ts) {i : Nat} {x : Variable}
    (hx : (ts.flatMap LayerCode.vars)[i]? = some x) :
    (∃ l : LayerId, x.name = s!"layer{l}") ∨ ∃ t ∈ ts, ∃ c ∈ t.loops, c.Owns (n + i) := by
  induction h generalizing i with
  | nil => simp at hx
  | @cons input n q head es rest ts _ hplaces _ hloops _ ih =>
    rw [List.flatMap_cons] at hx
    by_cases hlt : i < head.vars.length
    · rw [List.getElem?_append_left hlt, LayerCode.vars] at hx
      by_cases hdeclared : i < head.declared.length
      · rw [List.getElem?_append_left hdeclared] at hx
        have hmem := List.mem_of_getElem? hx
        rw [Places] at hplaces
        split at hplaces
        case isTrue => simp [hplaces.2] at hmem
        case isFalse =>
          rw [hplaces.2, List.mem_singleton] at hmem
          exact .inl ⟨q.2, by rw [hmem]⟩
      · have hlength := head.length_vars
        have hsplit : n + i = n + head.declared.length + (i - head.declared.length) := by
          rw [Nat.add_assoc, Nat.add_sub_cancel' (Nat.le_of_not_lt hdeclared)]
        obtain ⟨c, hc, howns⟩ := hloops.owned (i := i - head.declared.length) (by omega)
        exact .inr ⟨head, List.mem_cons_self, c, hc, hsplit ▸ howns⟩
    · have hle := Nat.le_of_not_lt hlt
      have hsplit : n + i = n + head.vars.length + (i - head.vars.length) := by
        rw [Nat.add_assoc, Nat.add_sub_cancel' hle]
      rw [List.getElem?_append_right hle] at hx
      rw [hsplit]
      refine (ih hx).imp_right fun howned => ?_
      obtain ⟨t, ht, howned⟩ := howned
      exact ⟨t, List.mem_cons_of_mem _ ht, howned⟩

theorem LaysOut.getElem?_vars (h : net.LaysOut last input n qs ts) {params : List Variable}
    (hparams : params.length = n) (ht : t ∈ ts) (hc : c ∈ t.loops) {j : Nat} {x : Variable}
    (hx : c.vars[j]? = some x) :
    (params ++ ts.flatMap LayerCode.vars)[c.index + j]? = some x := by
  obtain ⟨i, hi⟩ := List.mem_iff_getElem?.1 ht
  obtain ⟨q, _, input, es, before, after, _, hsplit, _, _, _, hloops⟩ :=
    forall₂_getElem? (h.forall₂ hparams).flip hi
  obtain ⟨i, hindex, hget⟩ := hloops.getElem?_vars hc hx
  have hlt := (List.getElem?_eq_some_iff.1 hget).1
  have hlist : before ++ (t.vars ++ after) =
      (before ++ t.declared) ++ (t.loops.flatMap (·.vars) ++ after) := by simp [LayerCode.vars]
  rw [hsplit, hlist, hindex, ← List.length_append,
    List.getElem?_append_right (Nat.le_add_right _ _), Nat.add_sub_cancel_left,
    List.getElem?_append_left hlt, hget]

end

theorem parameter_names {k : Kernel} (h : net.lowering = .ok k) :
    (k.vars.toList.map Variable.name).take 2 = ["input", "output"] := by
  obtain ⟨_, _, h⟩ := bind_eq_ok.1 h
  obtain ⟨q, hq, h⟩ := bind_eq_ok.1 h
  obtain rfl := Except.ok.inj h
  obtain ⟨ts, _, hadds, _⟩ := loweringLayers_laysOut (by exact Nat.lt_succ_self 1)
    (by exact Nat.zero_lt_succ 1) hq
  rw [hadds.vars]
  rfl

end Network

/-- What binds a variable in the code of layers. -/
abbrev LayerCode.bindings (ts : List LayerCode) (v : VarId) : List Binding :=
  Code.allBindings v [] (ts.flatMap code)

/-- Variables have names of their own, and those with numbers are bound once. -/
structure Kernel.BindsOnce (k : Kernel) (ts : List LayerCode) : Prop where
  names : (k.vars.toList.map Variable.name).Nodup
  /-- A loop index belongs to one loop, and nothing else binds it. -/
  index : ∀ v x (n : Nat), k.vars[v]? = some x → x.name = s!"idx{n}" →
    ∃ scope start stop body, LayerCode.bindings ts v = [⟨scope, .loop v start stop body⟩]
  /-- Every loop has such an index. -/
  loop : ∀ v scope start stop body, ⟨scope, .loop v start stop body⟩ ∈ LayerCode.bindings ts v →
    ∃ x, k.vars[v]? = some x ∧ ∃ n : Nat, x.name = s!"idx{n}"
  /-- A temporary that nothing is folded into is assigned once, unless it is a vector. -/
  temporary : ∀ v x (n : Nat), k.vars[v]? = some x → x.name = s!"t{n}" → x.ty.isVector = false →
    accumulates (LayerCode.bindings ts) v = false →
    ∃ scope rhs, LayerCode.bindings ts v = [⟨scope, .assign (.var v) rhs⟩]
  /-- Any other is a temporary of an ensemble, and it is assigned twice. -/
  accumulator : ∀ v, accumulates (LayerCode.bindings ts) v = true →
    (∃ x, k.vars[v]? = some x ∧ ∃ n : Nat, x.name = s!"t{n}") ∧
    (∃ t ∈ ts, ∃ c ∈ t.loops, c.Owns v) ∧ ∃ op, Folded (LayerCode.bindings ts) op v

namespace Network.LaysOut

variable {net : Network} {last : LayerId} {qs : List (Layer × LayerId)} {ts : List LayerCode}
  {v : Nat} {k : Kernel} {params : List Variable}

/-- The variables of the loops are bound as their names and types tell. -/
theorem bound_of_owns (h : net.LaysOut last Kernel.inputVar 2 qs ts) (hparams : params.length = 2)
    (hvars : k.vars.toList = params ++ ts.flatMap LayerCode.vars) {t : LayerCode} (ht : t ∈ ts)
    {c : EnsembleLoop} (hc : c ∈ t.loops) (hv : c.Owns v) :
    ∃ x, k.vars[v]? = some x ∧
      ∃ role : Role, role.Names x.name ∧ Bound (LayerCode.bindings ts) v role x.ty := by
  obtain ⟨_, m, e, hm, _⟩ := h.block (Nat.le_refl 2) ht hc
  have hvector : t.vector < m := hm.index ▸ h.vector_lt (Nat.le_refl 2) ht hc
  obtain ⟨j, rfl⟩ := Nat.exists_eq_add_of_le hv.1
  have hlt : j < c.vars.length := Nat.lt_of_add_lt_add_left hv.2
  have hx := List.getElem?_eq_getElem hlt
  refine ⟨c.vars[j], ?_, ?_⟩
  · rw [← Array.getElem?_toList, hvars, h.getElem?_vars hparams ht hc hx]
  · rw [hm.index]
    exact hm.bound (fun w hw => h.bindings (Nat.le_refl 2) ht hc hw) hvector hx

/-- A variable with a numbered name that is no layer's is declared for one of the loops. -/
theorem owned_of_name (h : net.LaysOut last Kernel.inputVar 2 qs ts) (hparams : params.length = 2)
    (hvars : k.vars.toList = params ++ ts.flatMap LayerCode.vars)
    (hnames : params.map Variable.name = ["input", "output"]) {x : Variable}
    (hx : k.vars[v]? = some x) (hname : stem x.name = ['t'] ∨ stem x.name = ['i', 'd', 'x']) :
    ∃ t ∈ ts, ∃ c ∈ t.loops, c.Owns v := by
  rw [← Array.getElem?_toList, hvars] at hx
  by_cases hlt : v < 2
  · rw [List.getElem?_append_left (hparams ▸ hlt)] at hx
    have hmem := List.mem_map_of_mem (f := Variable.name) (List.mem_of_getElem? hx)
    rw [hnames] at hmem
    have hstem : ∀ name ∈ ["input", "output"], stem name ≠ ['t'] ∧ stem name ≠ ['i', 'd', 'x'] := by
      decide
    have hne := hstem _ hmem
    exact absurd hname (not_or.2 hne)
  · have hle : params.length ≤ v := by omega
    have hsplit : 2 + (v - params.length) = v := by omega
    rw [List.getElem?_append_right hle] at hx
    rcases h.layer_or_owned hx with ⟨l, hl⟩ | howned
    · rw [hl, stem_layer] at hname
      simp at hname
    · rwa [hsplit] at howned

theorem bindsOnce (h : net.LaysOut last Kernel.inputVar 2 qs ts) (hparams : params.length = 2)
    (hvars : k.vars.toList = params ++ ts.flatMap LayerCode.vars)
    (hnames : params.map Variable.name = ["input", "output"])
    (hdistinct : (k.vars.toList.map Variable.name).Nodup) : k.BindsOnce ts := by
  have hnamed : ∀ v x, k.vars[v]? = some x →
      stem x.name = ['t'] ∨ stem x.name = ['i', 'd', 'x'] →
      ∃ role : Role, role.Names x.name ∧ Bound (LayerCode.bindings ts) v role x.ty := by
    intro v x hx hname
    obtain ⟨t, ht, c, hc, howns⟩ := h.owned_of_name hparams hvars hnames hx hname
    obtain ⟨y, hy, hbound⟩ := h.bound_of_owns hparams hvars ht hc howns
    rwa [Option.some.inj (hx.symm.trans hy)]
  have howned : ∀ v, ∀ b ∈ LayerCode.bindings ts v, ¬b.Fills v →
      ∃ t ∈ ts, ∃ c ∈ t.loops, c.Owns v :=
    fun v b hb hfills => (h.fills_or_owned (Nat.le_refl 2) hb).resolve_left hfills
  refine ⟨hdistinct, ?_, ?_, ?_, ?_⟩
  · intro v x n hx hname
    have hstem : stem x.name = ['i', 'd', 'x'] := hname ▸ stem_index n
    obtain ⟨role, hrole, hbound⟩ := hnamed v x hx (.inr hstem)
    obtain rfl : role = .index := by
      by_contra hne
      simp [hrole.stem_eq hne] at hstem
    exact hbound.eq_loop
  · intro v scope start stop body hb
    obtain ⟨t, ht, c, hc, howns⟩ := howned v _ hb (by simp [Binding.Fills])
    obtain ⟨x, hx, role, hrole, hbound⟩ := h.bound_of_owns hparams hvars ht hc howns
    obtain rfl := hbound.role_of_loop hb
    exact ⟨x, hx, hrole⟩
  · intro v x n hx hname hscalar hacc
    have hstem : stem x.name = ['t'] := hname ▸ stem_temporary n
    obtain ⟨role, hrole, hbound⟩ := hnamed v x hx (.inl hstem)
    cases role with
    | temporary => exact hbound.eq_assign hscalar
    | accumulator => simp [hbound.accumulates_iff.2 rfl] at hacc
    | index =>
      obtain ⟨m, hm⟩ := hrole
      rw [hm, stem_index] at hstem
      simp at hstem
  · intro v hacc
    obtain ⟨b, hb, hfolds⟩ := List.any_eq_true.1 hacc
    obtain ⟨t, ht, c, hc, howns⟩ := howned v b hb (Binding.not_fills_of_folds hfolds)
    obtain ⟨x, hx, role, hrole, hbound⟩ := h.bound_of_owns hparams hvars ht hc howns
    obtain rfl := hbound.accumulates_iff.1 hacc
    exact ⟨⟨x, hx, hrole⟩, ⟨t, ht, c, hc, howns⟩, hbound.folded⟩

end Network.LaysOut

/-- In the loop of an ensemble, the variables that read themselves belong to the reductions of the
ensemble's expression, one to each. -/
def Network.ReducesOnce (net : Network) (ts : List LayerCode) (e : Ensemble) (c : EnsembleLoop) :
    Prop :=
  ∃ root ids, net.forward? e.representative = some root ∧ ids.Nodup ∧
    (∀ id, id ∈ ids ↔ (Arena.dag net.arena.nodes).Reaches root id) ∧
    net.Reduces (LayerCode.bindings ts) ids (List.range' c.index c.vars.length)

/-- In a lowered kernel the variables have distinct names. A loop index is bound by one loop, a
scalar temporary by one assignment, and what a reduction is folded into by two. -/
theorem variables_bound_once {s s' : Session} (hs : s.Reachable) {k : Kernel}
    (hk : Pass.lower s = .ok k s') :
    ∃ ts : List LayerCode,
      codesOf k.arena.nodes k.body = some (ts.flatMap LayerCode.code) ∧
      k.BindsOnce ts ∧
      List.Forall₂ (fun q t => ∃ es, s.Compiles k q es t ∧
        List.Forall₂ (s.net.ReducesOnce ts) es t.loops) s.net.loweredLayers ts := by
  have hlowering := hs.lowering_eq hk
  have hr := Network.Ready.of_lowering hs.wellFormed hs.built hlowering
  obtain ⟨params, ts, hts, hparams, hvars, hcodes⟩ := Network.lowering_laysOut hlowering
  have hnames : params.map Variable.name = ["input", "output"] := by
    have htake := Network.parameter_names hlowering
    rwa [hvars, List.map_append, List.take_left' (by simp [hparams])] at htake
  refine ⟨ts, hcodes, hts.bindsOnce hparams hvars hnames (Network.nodup_names hlowering), ?_⟩
  apply (forall₂_mem (hs.compiles hr hts hparams hvars)).imp
  rintro q t ⟨hq, ht, input, n, es, hc, htiles, hloops⟩
  refine ⟨es, hc, ?_⟩
  apply (forall₂_mem hloops.forall₂).imp
  rintro e c ⟨he, hmem, n, hrenders⟩
  have hrepresentative : e.representative ∈ q.1.neurons :=
    htiles.mem he (by simp [Ensemble.neurons])
  obtain ⟨root, r, hroot, hrecipe⟩ := (hs.lowered hk).recipes q hq _ hrepresentative
  have hvector : t.vector < n := hrenders.index ▸ hts.vector_lt (Nat.le_refl 2) ht hmem
  have hreduces := hrenders.reduces (fun w hw => hts.bindings (Nat.le_refl 2) ht hmem hw) hvector
    hroot hrecipe
  rw [← hrenders.index] at hreduces
  exact ⟨root, _, hroot, Dag.nodup_postorder _ root, fun id => Dag.mem_postorder, hreduces⟩

/-- Two hidden neurons that take the largest and the sum of the same products, and an output that
reads both. -/
def tallied : Session := .ofRequests [
  .addLayer, .addNeuron 0 .input, .addNeuron 0 .input,
  .addLayer, .addNeuron 1 .hidden, .addNeuron 1 .hidden,
  .addLayer, .addNeuron 2 .output,
  .connect 0 2, .connect 1 2, .connect 0 3, .connect 1 3, .connect 2 4, .connect 3 4,
  .setForward 2 { above := [.input 2, .binary .mul 0 0, .reduce .max 1, .reduce .sum 1],
                  last := .binary .sub 2 3 },
  .setForward 3 { above := [.input 3, .binary .mul 0 0, .reduce .max 1, .reduce .sum 1],
                  last := .binary .sub 2 3 },
  .setForward 4 { above := [.input 4, .reduce .product 0], last := .unary .minus 1 }]

theorem tallied_bound_once : tallied.Reachable ∧ ∃ k s', Pass.lower tallied = .ok k s' ∧
    k.vars.toList.map Variable.name = ["input", "output", "layer1", "idx0", "t0", "t1", "t2", "t3",
      "idx1", "t4", "idx2", "t5", "idx3", "t6", "idx4", "t7", "t8", "t9", "t10", "idx5", "t11"] ∧
    ∃ ts : List LayerCode,
      codesOf k.arena.nodes k.body = some (ts.flatMap LayerCode.code) ∧
      k.BindsOnce ts ∧
      List.Forall₂ (fun q t => ∃ es, tallied.Compiles k q es t ∧
        List.Forall₂ (tallied.net.ReducesOnce ts) es t.loops) tallied.net.loweredLayers ts := by
  have hs : tallied.Reachable := Session.reachable_ofRequests _
  have hnames : tallied.kernel?.map (fun k => k.vars.toList.map Variable.name) =
      some ["input", "output", "layer1", "idx0", "t0", "t1", "t2", "t3", "idx1", "t4", "idx2", "t5",
        "idx3", "t6", "idx4", "t7", "t8", "t9", "t10", "idx5", "t11"] := by
    decide +kernel
  obtain ⟨k, hk, hnames⟩ := Option.map_eq_some_iff.1 hnames
  obtain ⟨s', hlower⟩ := Session.kernel?_eq_some.1 hk
  exact ⟨hs, k, s', hlower, hnames, variables_bound_once hs hlower⟩

end Synapse
