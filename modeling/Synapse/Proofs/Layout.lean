import Mathlib.Tactic
import Synapse.Proofs.Invariance

namespace Synapse

/-- The loop of an ensemble, with the variables that are declared for it. -/
structure EnsembleLoop where
  index : VarId
  start : Nat
  stop : Nat
  /-- What the loop does before it stores the result. -/
  body : List Code
  result : Formula
  vars : List Variable

/-- The code of a layer, with the variable that is declared for its results, unless they go to the
output. -/
structure LayerCode where
  vector : VarId
  width : Nat
  declared : List Variable
  loops : List EnsembleLoop

def EnsembleLoop.code (vector : VarId) (c : EnsembleLoop) : Code :=
  .loop c.index (.int c.start) (.int c.stop)
    (c.body ++ [.assign (.element vector (.var c.index)) c.result])

namespace LayerCode

def code (t : LayerCode) : List Code :=
  if t.vector = Kernel.outputVar then t.loops.map (·.code t.vector)
  else .define t.vector :: t.loops.map (·.code t.vector)

def vars (t : LayerCode) : List Variable := t.declared ++ t.loops.flatMap (·.vars)

theorem length_vars (t : LayerCode) :
    t.vars.length = t.declared.length + (t.loops.flatMap (·.vars)).length := List.length_append

theorem of_mem_code {t : LayerCode} {d : Code} (h : d ∈ t.code) :
    d = .define t.vector ∨ ∃ c ∈ t.loops, d = c.code t.vector := by
  have hloop : d ∈ t.loops.map (·.code t.vector) → ∃ c ∈ t.loops, d = c.code t.vector := by
    intro hd
    obtain ⟨c, hc, rfl⟩ := List.mem_map.1 hd
    exact ⟨c, hc, rfl⟩
  rw [code] at h
  split at h
  · exact .inr (hloop h)
  · exact (List.mem_cons.1 h).imp_right hloop

end LayerCode

namespace Network

variable {net : Network}

/-- `c` is the loop of `e`: it reads `input`, and its variables start with number `n`. -/
structure Renders (net : Network) (input n : VarId) (e : Ensemble) (c : EnsembleLoop) : Prop where
  reads : input < n
  index : c.index = n
  start : c.start = e.start
  stop : c.stop = e.stop
  body : ∃ site : Site, site.input = input ∧ site.index = n ∧
    c.body = (net.recipe e.representative).code site [] (n + 1)
  result : c.result = .var (((net.recipe e.representative).operands (n + 1)).getLastD default).var
  types : c.vars.map Variable.ty = .int :: (net.recipe e.representative).locals
  names : ∃ temporary first, c.vars.map Variable.name =
    Role.names temporary first (.index :: (net.recipe e.representative).roles)

/-- The loops of ensembles follow one another, and so do their variables. -/
inductive RendersAll (net : Network) (input : VarId) :
    VarId → List Ensemble → List EnsembleLoop → Prop
  | nil (n : VarId) : RendersAll net input n [] []
  | cons {n : VarId} {e : Ensemble} {c : EnsembleLoop} {es : List Ensemble}
      {cs : List EnsembleLoop} (h : net.Renders input n e c)
      (hrest : RendersAll net input (n + c.vars.length) es cs) :
      RendersAll net input n (e :: es) (c :: cs)

/-- Where a layer puts its results: the last one into the output, any other into the variable `n`,
which is declared for it. -/
def Places (last : LayerId) (n : VarId) (q : Layer × LayerId) (t : LayerCode) : Prop :=
  if q.2 = last then t.vector = Kernel.outputVar ∧ t.declared = []
  else t.vector = n ∧ t.declared = [⟨s!"layer{q.2}", q.1.vectorTy⟩]

/-- The layers follow one another. Each reads what the one before has computed. -/
inductive LaysOut (net : Network) (last : LayerId) :
    VarId → VarId → List (Layer × LayerId) → List LayerCode → Prop
  | nil (input n : VarId) : LaysOut net last input n [] []
  | cons {input n : VarId} {q : Layer × LayerId} {t : LayerCode} {es : List Ensemble}
      {rest : List (Layer × LayerId)} {ts : List LayerCode}
      (hgrouping : net.grouping q.2 q.1.neurons = .ok es) (hplaces : Places last n q t)
      (hwidth : t.width = q.1.neurons.length)
      (hloops : net.RendersAll input (n + t.declared.length) es t.loops)
      (hrest : LaysOut net last t.vector (n + t.vars.length) rest ts) :
      LaysOut net last input n (q :: rest) (t :: ts)

end Network

/-- What a part of lowering adds to a kernel: nodes, and the given variables. -/
structure Build.Adds (b b' : Build) (new : List Variable) : Prop where
  vars : b'.vars.toList = b.vars.toList ++ new
  nodes : Arena.Extends b.nodes b'.nodes

namespace Build.Adds

variable {b b' b'' : Build} {new new' : List Variable}

theorem refl (b : Build) : b.Adds b [] := ⟨by simp, .refl _⟩

theorem trans (h : b.Adds b' new) (h' : b'.Adds b'' new') : b.Adds b'' (new ++ new') :=
  ⟨by rw [h'.vars, h.vars, List.append_assoc], fun id n hn => h'.nodes id n (h.nodes id n hn)⟩

theorem size (h : b.Adds b' new) : b'.vars.size = b.vars.size + new.length := by
  simpa using congrArg List.length h.vars

theorem lt_size (h : b.Adds b' new) {v : VarId} (hv : v < b.vars.size) : v < b'.vars.size :=
  hv.trans_le (h.size ▸ Nat.le_add_right _ _)

end Build.Adds

namespace Network

variable {net : Network}

theorem loweringEnsemble_renders {e : Ensemble} {input output : VarId} {b : Build}
    {q : Build × Stmt} (hinput : input < b.vars.size)
    (h : net.loweringEnsemble e input output b = .ok q) :
    ∃ c, net.Renders input b.vars.size e c ∧ b.Adds q.1 c.vars ∧
      q.2.code? q.1.nodes = some (c.code output) := by
  unfold loweringEnsemble at h
  split at h
  · cases h
  · obtain rfl := Except.ok.inj h
    -- The build with the tables of the ensemble, where its site is known.
    set site : VarId → Site := fun index =>
      { input, index, start := e.start, firstTable := b.tables.size,
        sources := net.sourcesOf e.representative,
        wiring := net.wiring e (b.tables.size + (net.literalTables e).length) }
    set b₀ : Build := { b with
      tables := b.tables ++ (net.literalTables e ++ net.baseTables e).toArray }
    have hemits := Emit.emits_ensemble b₀ e site (net.recipe e.representative) output
    obtain ⟨new, hvars, htypes, hnames⟩ := hemits.grows.vars
    exact ⟨⟨b.vars.size, e.start, e.stop, _, _, new⟩,
      ⟨hinput, rfl, rfl, rfl, ⟨site b.vars.size, rfl, rfl, rfl⟩, rfl, htypes, _, _, hnames⟩,
      ⟨hvars, hemits.grows.nodes⟩, hemits.holds⟩

theorem loweringEnsembles_renders {es : List Ensemble} {input output : VarId} {b : Build}
    {q : Build × List Stmt} (hinput : input < b.vars.size)
    (h : net.loweringEnsembles input output es b = .ok q) :
    ∃ cs, net.RendersAll input b.vars.size es cs ∧
      b.Adds q.1 (cs.flatMap (·.vars)) ∧
      codesOf q.1.nodes q.2 = some (cs.map (·.code output)) := by
  induction es generalizing b q with
  | nil =>
    obtain rfl := Except.ok.inj h
    exact ⟨[], .nil _, .refl b, rfl⟩
  | cons e es ih =>
    obtain ⟨here, hhere, h⟩ := bind_eq_ok.1 h
    obtain ⟨below, hbelow, h⟩ := bind_eq_ok.1 h
    obtain rfl := Except.ok.inj h
    obtain ⟨c, hc, hadds, hcode⟩ := loweringEnsemble_renders hinput hhere
    obtain ⟨cs, hcs, hadds', hcodes⟩ := ih (hadds.lt_size hinput) hbelow
    rw [hadds.size] at hcs
    exact ⟨c :: cs, .cons hc hcs, hadds.trans hadds',
      codesOf_cons (code?_mono hadds'.nodes _ hcode) hcodes⟩

theorem loweringLayers_laysOut {layers : List (Layer × LayerId)} {last : LayerId} {input : VarId}
    {b : Build} {q : Build × List Stmt} (hb : Kernel.outputVar < b.vars.size)
    (hinput : input < b.vars.size) (h : net.loweringLayers last input layers b = .ok q) :
    ∃ ts, net.LaysOut last input b.vars.size layers ts ∧
      b.Adds q.1 (ts.flatMap LayerCode.vars) ∧
      codesOf q.1.nodes q.2 = some (ts.flatMap LayerCode.code) := by
  induction layers generalizing input b q with
  | nil =>
    obtain rfl := Except.ok.inj h
    exact ⟨[], .nil _ _, .refl b, rfl⟩
  | cons p rest ih =>
    obtain ⟨es, hes, h⟩ := bind_eq_ok.1 h
    obtain ⟨here, hhere, h⟩ := bind_eq_ok.1 h
    obtain ⟨below, hbelow, h⟩ := bind_eq_ok.1 h
    obtain rfl := Except.ok.inj h
    -- Where the layer writes to, and the variable that is declared for it.
    obtain ⟨vector, declared, hfirst, hstart, hvector, hplaces⟩ : ∃ vector declared,
        b.Adds (if p.2 = last then (Kernel.outputVar, b)
          else Emit.declare s!"layer{p.2}" p.1.vectorTy b).2 declared ∧
        (if p.2 = last then (Kernel.outputVar, b)
          else Emit.declare s!"layer{p.2}" p.1.vectorTy b).1 = vector ∧
        vector < b.vars.size + declared.length ∧
        ∀ cs, Places last b.vars.size p ⟨vector, p.1.neurons.length, declared, cs⟩ := by
      unfold Places
      split
      · exact ⟨_, [], .refl b, rfl, hb, fun _ => ⟨rfl, rfl⟩⟩
      · exact ⟨_, _, ⟨Array.toList_push, .refl _⟩, rfl, Nat.lt_succ_self _, fun _ => ⟨rfl, rfl⟩⟩
    obtain ⟨cs, hcs, hadds, hcodes⟩ := loweringEnsembles_renders (hfirst.lt_size hinput) hhere
    specialize hplaces cs
    rw [← hfirst.size] at hvector
    rw [hstart] at hcodes hbelow
    have hadded := hfirst.trans hadds
    obtain ⟨ts, hts, hadds', hcodes'⟩ := ih (hadded.lt_size hb) (hadds.lt_size hvector) hbelow
    rw [hfirst.size] at hcs
    rw [hadded.size] at hts
    refine ⟨⟨vector, p.1.neurons.length, declared, cs⟩ :: ts, .cons hes hplaces rfl hcs hts,
      hadded.trans hadds', codesOf_append ?_ hcodes'⟩
    have hloops := codesOf_mono hadds'.nodes _ hcodes
    simp only [Places] at hplaces
    split at hplaces
    case isTrue hlast =>
      rw [if_pos hlast, LayerCode.code, if_pos hplaces.1]
      exact hloops
    case isFalse hlast =>
      have hne : vector ≠ Kernel.outputVar := by
        rw [hplaces.1]
        exact Nat.ne_of_gt hb
      rw [if_neg hlast, LayerCode.code, if_neg hne, hstart]
      exact codesOf_cons rfl hloops

/-- The code and the variables of a kernel follow the lowered layers. -/
theorem lowering_laysOut {k : Kernel} (h : net.lowering = .ok k) :
    ∃ params ts, net.LaysOut (net.layers.size - 1) Kernel.inputVar 2 net.loweredLayers ts ∧
      params.length = 2 ∧ k.vars.toList = params ++ ts.flatMap LayerCode.vars ∧
      codesOf k.arena.nodes k.body = some (ts.flatMap LayerCode.code) := by
  obtain ⟨_, _, h⟩ := bind_eq_ok.1 h
  obtain ⟨q, hq, h⟩ := bind_eq_ok.1 h
  obtain rfl := Except.ok.inj h
  obtain ⟨ts, hts, hadds, hcodes⟩ := loweringLayers_laysOut (by exact Nat.lt_succ_self 1)
    (by exact Nat.zero_lt_succ 1) hq
  exact ⟨_, ts, hts, rfl, hadds.vars, hcodes⟩

/-- Each layer is laid out with its ensembles, and its variables stand together. -/
theorem LaysOut.forall₂ {last : LayerId} {input n : VarId} {qs : List (Layer × LayerId)}
    {ts : List LayerCode} (h : net.LaysOut last input n qs ts) {first : List Variable}
    (hfirst : first.length = n) :
    List.Forall₂ (fun q t => ∃ input es before after, n ≤ before.length ∧
      first ++ ts.flatMap LayerCode.vars = before ++ (t.vars ++ after) ∧
      net.grouping q.2 q.1.neurons = .ok es ∧ Places last before.length q t ∧
      t.width = q.1.neurons.length ∧
      net.RendersAll input (before.length + t.declared.length) es t.loops) qs ts := by
  induction h generalizing first with
  | nil => exact .nil
  | cons hgrouping hplaces hwidth hloops _ ih =>
    subst hfirst
    refine .cons ⟨_, _, first, _, Nat.le_refl _, rfl, hgrouping, hplaces, hwidth, hloops⟩ ?_
    refine (@ih (first ++ _) List.length_append).imp ?_
    rintro q t ⟨input, es, before, after, hle, hvars, h⟩
    refine ⟨input, es, before, after, (Nat.le_add_right _ _).trans hle, ?_, h⟩
    rw [← hvars, List.flatMap_cons, List.append_assoc]

theorem RendersAll.forall₂ {input n : VarId} {es : List Ensemble} {cs : List EnsembleLoop}
    (h : net.RendersAll input n es cs) :
    List.Forall₂ (fun e c => ∃ n, net.Renders input n e c) es cs := by
  induction h with
  | nil => exact .nil
  | cons h _ ih => exact .cons ⟨_, h⟩ ih

end Network

/-- `t` is the code of a layer in a kernel: it has the loops of the layer's ensembles, in order. Its
results go to the output, if the layer is the last, and otherwise to a vector that is declared for
it. -/
structure Session.Compiles (s : Session) (k : Kernel) (q : Layer × LayerId) (es : List Ensemble)
    (t : LayerCode) : Prop where
  ensembles : (Pass.ensembles q.2).result s = .ok es
  bounds : List.Forall₂ (fun e c => c.start = e.start ∧ c.stop = e.stop) es t.loops
  width : t.width = q.1.neurons.length
  output : t.vector = Kernel.outputVar ↔ q.2 + 1 = s.net.layers.size
  declared : t.declared = if q.2 + 1 = s.net.layers.size then []
    else [⟨s!"layer{q.2}", q.1.vectorTy⟩]
  vector : ∀ x ∈ t.declared, k.vars[t.vector]? = some x

theorem Session.Reachable.lowering_eq {s s' : Session} (hs : s.Reachable) {k : Kernel}
    (hk : Pass.lower s = .ok k s') : s.net.lowering = .ok k := by
  rw [← hs.lower_result, Pass.result, hk]

/-- The layers of a kernel that a session lowers to. -/
theorem Session.Reachable.compiles {s : Session} (hs : s.Reachable) (hr : s.net.Ready) {k : Kernel}
    {ts : List LayerCode} (h : s.net.LaysOut (s.net.layers.size - 1) Kernel.inputVar 2
      s.net.loweredLayers ts) {params : List Variable} (hparams : params.length = 2)
    (hvars : k.vars.toList = params ++ ts.flatMap LayerCode.vars) :
    List.Forall₂ (fun q t => ∃ input n es, s.Compiles k q es t ∧
      s.net.Tiles q.2 0 es q.1.neurons ∧ s.net.RendersAll input n es t.loops)
      s.net.loweredLayers ts := by
  have hlayers := (List.forall₂_and_left _ ts).2
    ⟨fun q hq => getElem?_of_mem_loweredLayers hq, h.forall₂ hparams⟩
  apply hlayers.imp
  rintro q t ⟨hl, input, es, before, after, hle, hsplit, hgrouping, hplaces, hwidth, hloops⟩
  obtain ⟨hlt, _⟩ := Array.getElem?_eq_some_iff.1 hl
  have hlast : q.2 = s.net.layers.size - 1 ↔ q.2 + 1 = s.net.layers.size :=
    eq_tsub_iff_add_eq_of_le (Nat.one_le_of_lt hlt)
  have hne : before.length ≠ Kernel.outputVar := Nat.ne_of_gt hle
  refine ⟨input, _, es, ⟨?_, ?_, hwidth, ?_, ?_, ?_⟩, hr.tiles hl hgrouping, hloops⟩
  · rw [(hr.ensembles (hs.upToDate hr) hl).result hs.wellFormed, hgrouping]
  · exact hloops.forall₂.imp fun e c hc => ⟨hc.choose_spec.start, hc.choose_spec.stop⟩
  all_goals
    simp only [Network.Places, hlast] at hplaces
    split at hplaces
    case isTrue h => simp [hplaces, h]
    case isFalse h =>
      simp [hplaces, h, hne, ← Array.getElem?_toList, hvars, hsplit, LayerCode.vars]

end Synapse
