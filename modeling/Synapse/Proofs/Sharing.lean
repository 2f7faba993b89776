import Mathlib.Tactic
import Synapse.Proofs.Layout

namespace Synapse

namespace Code

def isLoop : Code → Bool
  | loop _ _ _ _ => true
  | define _ | assign _ _ => false

mutual

/-- How deep the loops of a statement are nested. -/
def depth : Code → Nat
  | define _ | assign _ _ => 0
  | loop _ _ _ body => depths body + 1

def depths : List Code → Nat
  | [] => 0
  | c :: rest => max c.depth (depths rest)

end

theorem depths_le_iff {cs : List Code} {n : Nat} : depths cs ≤ n ↔ ∀ c ∈ cs, c.depth ≤ n := by
  induction cs with
  | nil => simp [depths]
  | cons c cs ih => simp [depths, ih]

theorem depth_of_isLoop {c : Code} (h : c.isLoop = false) : c.depth = 0 := by
  cases c with
  | define v => rw [depth]
  | assign lhs rhs => rw [depth]
  | loop index start stop body => cases h

end Code

namespace Network

variable {net : Network}

def isVectorAt (net : Network) (id : NodeId) : Bool :=
  match typeOf net.arena.nodes net.env id with
  | .ok t => t.isVector
  | .error _ => false

/-- Whether a node is computed by a loop: an operator on vectors, or a reduction. -/
def needsLoop (net : Network) (id : NodeId) : Bool :=
  match net.arena.nodes[id]? with
  | some (.unary _ _) | some (.binary _ _ _) => net.isVectorAt id
  | some (.reduce _ _) => true
  | _ => false

/-- The elements that a node reads from the layer before: one for a scalar input, and one for each
source of a vector, whose length is counted in 32 bits. -/
def inputReads (net : Network) (id : NodeId) : Nat :=
  match net.arena.nodes[id]? with
  | some (.input n) =>
    if net.isVectorAt id then net.neurons[n]?.elim 0 (·.sources.length % UInt32.size) else 1
  | _ => 0

/-- The loop that computes a node. -/
inductive LoopFor (net : Network) (id : NodeId) : Code → Prop
  | elementwise {n : Node} {s : Scalar} {len : Nat} (index : VarId) (lhs rhs : Formula)
      (hn : net.arena.nodes[id]? = some n)
      (hop : (∃ op x, n = .unary op x) ∨ ∃ op x y, n = .binary op x y)
      (ht : typeOf net.arena.nodes net.env id = .ok (.vector s (some len))) :
      LoopFor net id (.loop index (.int 0) (.int len) [.assign lhs rhs])
  | reduce {kind : Reduction} {x : NodeId} {s : Scalar} {len : Nat} (index : VarId)
      (lhs rhs : Formula) (hn : net.arena.nodes[id]? = some (.reduce kind x))
      (ht : typeOf net.arena.nodes net.env x = .ok (.vector s (some len))) :
      LoopFor net id (.loop index (.int 1) (.int len) [.assign lhs rhs])

theorem LoopFor.depth {id : NodeId} {c : Code} (h : net.LoopFor id c) : c.depth = 1 := by
  cases h <;> simp [Code.depth, Code.depths]

/-- What is declared and done for an ensemble whose expression has the distinct nodes `ids`. -/
structure OncePerNode (net : Network) (root : NodeId) (ids : List NodeId) (c : EnsembleLoop) :
    Prop where
  distinct : ids.Nodup
  reached : ∀ id, id ∈ ids ↔ (Arena.dag net.arena.nodes).Reaches root id
  names : ∃ temporary first, (c.vars.map Variable.name).Perm
    (localNames temporary first (ids.length + (ids.map net.inputReads).sum)
      ((ids.filter net.needsLoop).length + 1))
  loops : List.Forall₂ net.LoopFor (ids.filter net.needsLoop) (c.body.filter Code.isLoop)

end Network

theorem Node.step?_binary {op : Binary} {l r : NodeId} {place : NodeId → Nat} {rank : Nat}
    {step : Step} (h : (Node.binary op l r).step? place rank = some step) :
    step = .binary op (place l) (place r) := by
  cases op <;> cases h <;> rfl

theorem Code.isLoop_readInput {site : Site} {i : VarId} {position target : Formula} {c : Code}
    (h : c ∈ Code.readInput site i position target) : c.isLoop = false := by
  simp only [readInput, List.mem_cons, List.not_mem_nil, or_false] at h
  rcases h with rfl | rfl <;> rfl

theorem Code.isLoop_input {site : Site} {n : VarId} {extent : Extent} {c : Code}
    (h : c ∈ Code.input site n extent) : c.isLoop = false := by
  cases extent with
  | scalar s => exact isLoop_readInput h
  | vector s len =>
    simp only [input, List.mem_cons, List.mem_flatMap] at h
    obtain rfl | ⟨i, _, hc⟩ := h
    · rfl
    · exact isLoop_readInput hc

section

variable {net : Network} {root id : NodeId} {before after : List NodeId} {l : Line}

theorem exists_neuron_of_typeOf (ho : Arena.Ordered net.arena.nodes) {n : NeuronId} {t : Ty}
    (hn : net.arena.nodes[id]? = some (.input n))
    (ht : typeOf net.arena.nodes net.env id = .ok t) : ∃ x, net.neurons[n]? = some x := by
  rw [typeOf_node ho hn] at ht
  have hinput : (net.neuron n).map Neuron.inputTy = .ok t := orDefect_eq_ok.1 ht
  cases hx : net.neurons[n]? with
  | none => simp [Network.neuron, hx, Except.map] at hinput
  | some x => exact ⟨x, rfl⟩

theorem LineOf.isVectorAt (h : LineOf net root id l) :
    net.isVectorAt id = l.extent.ty.isVector := by
  simp only [Network.isVectorAt, h.type]

theorem LineOf.temporaries_eq (ho : Arena.Ordered net.arena.nodes) (h : LineOf net root id l) :
    l.temporaries = 1 + net.inputReads id := by
  have hvector := h.isVectorAt
  obtain ⟨⟨n, hn, hstep⟩, htype⟩ := h
  obtain ⟨step, extent⟩ := l
  cases n
  case input m =>
    cases hstep
    simp only [Network.inputReads, hn, hvector]
    obtain ⟨x, hx⟩ := exists_neuron_of_typeOf ho hn htype
    have hty : x.inputTy = extent.ty := Except.ok.inj ((typeOf_input ho hn hx).symm.trans htype)
    cases extent with
    | scalar s => rfl
    | vector s len =>
      simp only [Neuron.inputTy, Extent.ty] at hty
      split at hty
      · cases hty
      · cases hty
        rw [hx]
        exact Nat.add_comm _ _
  case binary op x y =>
    obtain rfl := Node.step?_binary hstep
    simp [Line.temporaries, Network.inputReads, hn]
  all_goals cases hstep
  all_goals simp [Line.temporaries, Network.inputReads, hn]

theorem LineOf.indices_eq (h : LineOf net root id l) :
    l.indices = if net.needsLoop id then 1 else 0 := by
  have hvector := h.isVectorAt
  obtain ⟨⟨n, hn, hstep⟩, _⟩ := h
  obtain ⟨step, extent⟩ := l
  cases n
  case unary op x =>
    cases hstep
    simp only [Network.needsLoop, hn, hvector]
    cases extent <;> rfl
  case binary op x y =>
    obtain rfl := Node.step?_binary hstep
    simp only [Network.needsLoop, hn, hvector]
    cases extent <;> rfl
  all_goals cases hstep
  all_goals simp [Line.indices, Network.needsLoop, hn]

theorem loopFor_elementwise {m : Node} {extent : Extent} (hm : net.arena.nodes[id]? = some m)
    (hop : (∃ op x, m = .unary op x) ∨ ∃ op x y, m = .binary op x y)
    (htype : typeOf net.arena.nodes net.env id = .ok extent.ty) (n : VarId)
    (value : Option VarId → Formula) :
    List.Forall₂ net.LoopFor ([id].filter net.needsLoop)
      ((Code.elementwise n extent value).filter Code.isLoop) := by
  have hneeds : net.needsLoop id = extent.ty.isVector := by
    rcases hop with ⟨op, x, rfl⟩ | ⟨op, x, y, rfl⟩ <;>
      simp only [Network.needsLoop, Network.isVectorAt, hm, htype]
  cases extent with
  | scalar s =>
    rw [List.filter_singleton, hneeds]
    exact .nil
  | vector s len =>
    rw [List.filter_singleton, hneeds]
    exact .cons (.elementwise _ _ _ hm hop htype) .nil

/-- The code of a line has a loop if its node needs one. The operands of the node are found in
`done`, with their types. -/
theorem LineOf.loops (ho : Arena.Ordered net.arena.nodes) (h : LineOf net root id l)
    {done : List Operand} (hdone : ∀ m, net.arena.nodes[id]? = some m → ∀ x ∈ m.operands,
      typeOf net.arena.nodes net.env x =
        .ok (done.getD ((net.order root).idxOf x) default).extent.ty) (site : Site) (n : VarId) :
    List.Forall₂ net.LoopFor ([id].filter net.needsLoop)
      ((Code.line site done n l).filter Code.isLoop) := by
  obtain ⟨⟨m, hm, hstep⟩, htype⟩ := h
  obtain ⟨step, extent⟩ := l
  have hnone : net.needsLoop id = false → ∀ {cs : List Code}, (∀ c ∈ cs, c.isLoop = false) →
      List.Forall₂ net.LoopFor ([id].filter net.needsLoop) (cs.filter Code.isLoop) := by
    intro hneeds cs hcs
    rw [List.filter_singleton, hneeds, List.filter_eq_nil_iff.2 (by simpa using hcs)]
    exact .nil
  cases m with
  | literal c =>
    cases hstep
    exact hnone (by simp only [Network.needsLoop, hm]) (by simp [Code.line, Code.isLoop])
  | unary op x =>
    cases hstep
    simp only [Code.line]
    exact loopFor_elementwise hm (.inl ⟨op, x, rfl⟩) htype n _
  | binary op x y =>
    obtain rfl := Node.step?_binary hstep
    simp only [Code.line]
    exact loopFor_elementwise hm (.inr ⟨op, x, y, rfl⟩) htype n _
  | input k =>
    cases hstep
    exact hnone (by simp only [Network.needsLoop, hm]) fun c hc => Code.isLoop_input hc
  | reduce kind x =>
    cases hstep
    have hneeds : net.needsLoop id = true := by simp only [Network.needsLoop, hm]
    have hx := hdone _ hm x (by simp [Node.operands])
    rw [typeOf_node ho hm] at htype
    simp only [Node.typeBy, hx] at htype
    have hrule := orTypeError_eq_ok.1 htype
    rw [List.filter_singleton, hneeds]
    simp only [Code.line, Code.reduce]
    generalize done.getD ((net.order root).idxOf x) default = z at *
    obtain ⟨v, zx⟩ := z
    cases zx with
    | scalar s => cases hrule
    | vector s len => exact .cons (.reduce _ _ _ hm hx) .nil
  | activate name x =>
    cases hstep
    exact hnone (by simp only [Network.needsLoop, hm]) (by simp [Code.line, Code.isLoop])
  | var v => cases hstep
  | element v x => cases hstep
  | entry t x => cases hstep

theorem loops_code (ho : Arena.Ordered net.arena.nodes) (h : net.order root = before ++ after)
    {ls rest : Recipe} (hls : List.Forall₂ (LineOf net root) before ls)
    (hrest : List.Forall₂ (LineOf net root) after rest) {done : List Operand}
    (hdone : done.map (·.extent) = ls.map (·.extent)) (site : Site) (n : VarId) :
    List.Forall₂ net.LoopFor (after.filter net.needsLoop)
      ((rest.code site done n).filter Code.isLoop) := by
  induction hrest generalizing before ls done n with
  | nil => exact .nil
  | @cons id l after rest hl _ ih =>
    rw [← List.singleton_append, List.filter_append, Recipe.code, List.filter_append]
    refine List.rel_append (hl.loops ho (fun m hm x hx => ?_) site n) ?_
    · obtain ⟨k, hk, hline⟩ := forall₂_getElem? hls (getElem?_before ho h hm hx)
      have hextent := congrArg (·[(net.order root).idxOf x]?) hdone
      simp only [List.getElem?_map, hk, Option.map_some] at hextent
      obtain ⟨z, hz, hzk⟩ := Option.map_eq_some_iff.1 hextent
      rw [List.getD_eq_getElem?_getD, hz, Option.getD_some, hzk]
      exact hline.type
    · exact ih (by simpa using h) (List.rel_append hls (.cons hl .nil)) (by simp [hdone]) _

/-- A recipe has one temporary for each node, and one for each element of an input that is read. -/
theorem sum_temporaries (ho : Arena.Ordered net.arena.nodes) {ids : List NodeId} {r : Recipe}
    (h : List.Forall₂ (LineOf net root) ids r) :
    (r.map Line.temporaries).sum = ids.length + (ids.map net.inputReads).sum := by
  induction h with
  | nil => rfl
  | cons hl _ ih =>
    rw [List.map_cons, List.sum_cons, ih, hl.temporaries_eq ho, List.length_cons, List.map_cons,
      List.sum_cons]
    omega

theorem sum_indices {ids : List NodeId} {r : Recipe} (h : List.Forall₂ (LineOf net root) ids r) :
    (r.map Line.indices).sum = (ids.filter net.needsLoop).length := by
  induction h with
  | nil => rfl
  | @cons id _ _ _ hl _ ih =>
    rw [List.map_cons, List.sum_cons, ih, hl.indices_eq, List.filter_cons]
    cases net.needsLoop id <;> simp [Nat.add_comm]

end

namespace Network

variable {net : Network}

/-- The loop of an ensemble is made from the distinct nodes of its representative's expression. -/
theorem Renders.oncePerNode (ho : Arena.Ordered net.arena.nodes) {input n : VarId} {e : Ensemble}
    {c : EnsembleLoop} (h : net.Renders input n e c) {root : NodeId} {r : Recipe}
    (hroot : net.forward? e.representative = some root) (hr : RecipeOf net root r) :
    net.OncePerNode root (net.order root) c := by
  obtain ⟨temporary, first, hnames⟩ := h.names
  obtain ⟨site, _, _, hbody⟩ := h.body
  rw [hr.recipe_eq hroot] at hnames hbody
  refine ⟨Dag.nodup_postorder _ root, fun id => Dag.mem_postorder, ⟨temporary, first, ?_⟩, ?_⟩
  · have hperm := Role.names_perm temporary first (.index :: r.roles)
    have hindices : (Role.index :: r.roles).count .index = r.roles.count .index + 1 :=
      List.count_cons_self
    have htemporaries : (Role.index :: r.roles).countP (· ≠ .index) =
        r.roles.countP (· ≠ .index) := by simp
    rw [hindices, htemporaries, r.count_roles.1, r.count_roles.2, sum_temporaries ho hr,
      sum_indices hr] at hperm
    rwa [hnames]
  · rw [hbody]
    exact loops_code ho (List.nil_append _).symm .nil hr rfl site _

theorem OncePerNode.depth {root : NodeId} {ids : List NodeId} {c : EnsembleLoop}
    (h : net.OncePerNode root ids c) (vector : VarId) : (c.code vector).depth ≤ 2 := by
  have hbody : ∀ d ∈ c.body, d.depth ≤ 1 := by
    intro d hd
    cases hloop : d.isLoop with
    | false => exact (Code.depth_of_isLoop hloop).trans_le (Nat.zero_le 1)
    | true =>
      obtain ⟨i, hi⟩ := List.mem_iff_getElem?.1 (List.mem_filter.2 ⟨hd, hloop⟩)
      obtain ⟨id, _, hid⟩ := forall₂_getElem? h.loops.flip hi
      exact hid.depth.le
  rw [EnsembleLoop.code, Code.depth]
  refine Nat.succ_le_succ (Code.depths_le_iff.2 fun d hd => ?_)
  rcases List.mem_append.1 hd with hd | hd
  · exact hbody d hd
  · rw [List.mem_singleton.1 hd, Code.depth]
    exact Nat.zero_le 1

end Network

/-- However an expression is shared, each of its nodes is lowered once, and loops are nested at most
two deep. -/
theorem shared_nodes_lowered_once {s s' : Session} (hs : s.Reachable) {k : Kernel}
    (hk : Pass.lower s = .ok k s') :
    ∃ ts : List LayerCode,
      codesOf k.arena.nodes k.body = some (ts.flatMap LayerCode.code) ∧
      k.vars.toList.drop 2 = ts.flatMap LayerCode.vars ∧
      List.Forall₂ (fun q t => ∃ es, s.Compiles k q es t ∧
        List.Forall₂ (fun e c => ∃ root ids, s.net.forward? e.representative = some root ∧
          s.net.OncePerNode root ids c) es t.loops) s.net.loweredLayers ts ∧
      ∀ c ∈ ts.flatMap LayerCode.code, c.depth ≤ 2 := by
  have hlowering := hs.lowering_eq hk
  have hr := Network.Ready.of_lowering hs.wellFormed hs.built hlowering
  obtain ⟨params, ts, hts, hparams, hvars, hcodes⟩ := Network.lowering_laysOut hlowering
  have hlayers : List.Forall₂ (fun q t => ∃ es, s.Compiles k q es t ∧
      List.Forall₂ (fun e c => ∃ root ids, s.net.forward? e.representative = some root ∧
        s.net.OncePerNode root ids c) es t.loops) s.net.loweredLayers ts := by
    have hcompiles := (List.forall₂_and_left _ ts).2
      ⟨fun q hq => hq, hs.compiles hr hts hparams hvars⟩
    apply hcompiles.imp
    rintro q t ⟨hq, input, n, es, hc, htiles, hloops⟩
    refine ⟨es, hc, ?_⟩
    have hmembers := (List.forall₂_and_left _ t.loops).2 ⟨fun e he => he, hloops.forall₂⟩
    apply hmembers.imp
    rintro e c ⟨he, n, hrenders⟩
    have hmem : e.representative ∈ q.1.neurons := htiles.mem he (by simp [Ensemble.neurons])
    obtain ⟨root, r, hroot, hrecipe⟩ := (hs.lowered hk).recipes q hq _ hmem
    exact ⟨root, _, hroot, hrenders.oncePerNode hs.wellFormed.ordered hroot hrecipe⟩
  refine ⟨ts, hcodes, by rw [hvars, ← hparams, List.drop_left], hlayers, ?_⟩
  intro c hc
  obtain ⟨t, ht, hct⟩ := List.mem_flatMap.1 hc
  obtain ⟨i, hi⟩ := List.mem_iff_getElem?.1 ht
  obtain ⟨q, _, es, _, hloops⟩ := forall₂_getElem? hlayers.flip hi
  rcases LayerCode.of_mem_code hct with rfl | ⟨l, hl, rfl⟩
  · rw [Code.depth]
    exact Nat.zero_le 2
  · obtain ⟨j, hj⟩ := List.mem_iff_getElem?.1 hl
    obtain ⟨e, _, root, ids, _, honce⟩ := forall₂_getElem? hloops.flip hj
    exact honce.depth t.vector

/-- A neuron with two sources, whose expression names its inputs and each result twice. -/
def doubled : Session := .ofRequests [
  .addLayer, .addNeuron 0 .input, .addNeuron 0 .input, .addLayer, .addNeuron 1 .output,
  .connect 0 2, .connect 1 2,
  .setForward 2 { above := [.input 2, .binary .mul 0 0, .binary .add 1 1, .reduce .sum 2],
                  last := .binary .mul 3 3 }]

theorem doubled_lowered_once : doubled.Reachable ∧ ∃ k s', Pass.lower doubled = .ok k s' ∧
    k.vars.toList.map Variable.name = ["input", "output", "idx0", "t0", "t1", "t2", "t3", "idx1",
      "t4", "idx2", "t5", "idx3", "t6"] ∧
    ∃ ts : List LayerCode,
      codesOf k.arena.nodes k.body = some (ts.flatMap LayerCode.code) ∧
      k.vars.toList.drop 2 = ts.flatMap LayerCode.vars ∧
      List.Forall₂ (fun q t => ∃ es, doubled.Compiles k q es t ∧
        List.Forall₂ (fun e c => ∃ root ids,
          doubled.net.forward? e.representative = some root ∧
          doubled.net.OncePerNode root ids c) es t.loops) doubled.net.loweredLayers ts ∧
      ∀ c ∈ ts.flatMap LayerCode.code, c.depth ≤ 2 := by
  have hs : doubled.Reachable := Session.reachable_ofRequests _
  have hnames : doubled.kernel?.map (fun k => k.vars.toList.map Variable.name) =
      some ["input", "output", "idx0", "t0", "t1", "t2", "t3", "idx1", "t4", "idx2", "t5", "idx3",
        "t6"] := by decide +kernel
  obtain ⟨k, hk, hnames⟩ := Option.map_eq_some_iff.1 hnames
  obtain ⟨s', hlower⟩ := Session.kernel?_eq_some.1 hk
  exact ⟨hs, k, s', hlower, hnames, shared_nodes_lowered_once hs hlower⟩

end Synapse
