import Mathlib.Tactic
import Synapse.Network.Grouping
import Synapse.Proofs.Shape

namespace Synapse

/-- The nodes of one arena are in another, with the same numbers. -/
def Arena.Extends (nodes nodes' : Array Node) : Prop :=
  ∀ (id : NodeId) (n : Node), nodes[id]? = some n → nodes'[id]? = some n

/-- What has a type in the one surroundings has it in the other. -/
structure Env.Extends (env env' : Env) : Prop where
  input : ∀ n t, env.input n = .ok t → env'.input n = .ok t
  var : ∀ v t, env.var v = .ok t → env'.var v = .ok t
  table : ∀ s t, env.table s = .ok t → env'.table s = .ok t

namespace Arena.Extends

variable {nodes nodes' : Array Node}

theorem refl (nodes : Array Node) : Extends nodes nodes := fun _ _ h => h

theorem append (nodes more : Array Node) : Extends nodes (nodes ++ more) := by
  intro id n h
  have hlt : id < nodes.size := (Array.getElem?_eq_some_iff.1 h).1
  rw [Array.getElem?_append_left hlt, h]

theorem find? (h : Extends nodes nodes') {id : NodeId}
    {n : { n : Node // ∀ x ∈ n.operands, x < id }} (hn : Arena.find? nodes id = some n) :
    Arena.find? nodes' id = some n := by
  unfold Arena.find? at hn ⊢
  split at hn
  · simp at hn
  · rename_i m hm
    simp only [h id m hm]
    exact hn

theorem operandsOf (h : Extends nodes nodes') {id : NodeId} {n : Node} (hn : nodes[id]? = some n) :
    Arena.operandsOf nodes' id = Arena.operandsOf nodes id := by
  simp only [Arena.operandsOf, hn, h id n hn]

theorem reaches (h : Extends nodes nodes') {i x : NodeId} (hx : (dag nodes).Reaches i x) :
    (dag nodes').Reaches i x := by
  induction hx with
  | refl => exact .refl _ i
  | @tail j x _ hx ih =>
    refine ih.trans (.operand ?_)
    change x ∈ Arena.operandsOf nodes' j
    cases hj : nodes[j]? with
    | none =>
      change x ∈ Arena.operandsOf nodes j at hx
      simp [operandsOf_none hj] at hx
    | some n => rwa [h.operandsOf hj]

theorem reaches_iff (h : Extends nodes nodes') {i x : NodeId} (hi : i < nodes.size) :
    (dag nodes').Reaches i x ↔ (dag nodes).Reaches i x := by
  constructor
  · intro hx
    induction hx with
    | refl => exact .refl _ i
    | @tail j x _ hx ih =>
      have hj : j < nodes.size := ih.le.trans_lt hi
      refine ih.trans (.operand ?_)
      change x ∈ Arena.operandsOf nodes j
      rwa [← h.operandsOf (Array.getElem?_eq_getElem hj)]
  · exact h.reaches

end Arena.Extends

theorem Node.typeBy_mono {env env' : Env} (henv : env.Extends env')
    {f g : NodeId → Except Failure Ty} {n : Node} {t : Ty}
    (h : ∀ x ∈ n.operands, ∀ t, f x = .ok t → g x = .ok t) (ht : n.typeBy env f = .ok t) :
    n.typeBy env' g = .ok t := by
  cases n with
  | literal c => exact ht
  | unary op x => exact h x (by simp [operands]) t ht
  | binary op l r =>
    obtain ⟨u, hu, ht⟩ := bind_eq_ok.1 ht
    obtain ⟨v, hv, ht⟩ := bind_eq_ok.1 ht
    exact bind_eq_ok.2 ⟨u, h l (by simp [operands]) u hu,
      bind_eq_ok.2 ⟨v, h r (by simp [operands]) v hv, ht⟩⟩
  | input n => exact orDefect_eq_ok.2 (henv.input n t (orDefect_eq_ok.1 ht))
  | reduce kind x =>
    obtain ⟨u, hu, ht⟩ := bind_eq_ok.1 ht
    exact bind_eq_ok.2 ⟨u, h x (by simp [operands]) u hu, ht⟩
  | activate name x =>
    obtain ⟨u, hu, ht⟩ := bind_eq_ok.1 ht
    exact bind_eq_ok.2 ⟨u, h x (by simp [operands]) u hu, ht⟩
  | var v => exact orDefect_eq_ok.2 (henv.var v t (orDefect_eq_ok.1 ht))
  | element v x =>
    obtain ⟨u, hu, ht⟩ := bind_eq_ok.1 ht
    obtain ⟨s, hs, ht⟩ := bind_eq_ok.1 ht
    obtain ⟨w, hw, ht⟩ := bind_eq_ok.1 ht
    exact bind_eq_ok.2 ⟨u, orDefect_eq_ok.2 (henv.var v u (orDefect_eq_ok.1 hu)),
      bind_eq_ok.2 ⟨s, hs, bind_eq_ok.2 ⟨w, h x (by simp [operands]) w hw, ht⟩⟩⟩
  | entry s x =>
    obtain ⟨u, hu, ht⟩ := bind_eq_ok.1 ht
    obtain ⟨w, hw, ht⟩ := bind_eq_ok.1 ht
    exact bind_eq_ok.2 ⟨u, h x (by simp [operands]) u hu, bind_eq_ok.2 ⟨w, hw,
      orDefect_eq_ok.2 (henv.table s t (orDefect_eq_ok.1 ht))⟩⟩

theorem typeOf_mono {nodes nodes' : Array Node} {env env' : Env}
    (hnodes : Arena.Extends nodes nodes') (henv : env.Extends env') {id : NodeId} {t : Ty}
    (ht : typeOf nodes env id = .ok t) : typeOf nodes' env' id = .ok t := by
  induction id using Nat.strong_induction_on generalizing t with
  | _ id ih =>
  rw [typeOf, typeFrom_unknown (by simp)] at ht ⊢
  cases hn : Arena.find? nodes id with
  | none => simp [hn] at ht
  | some n =>
    simp only [hn] at ht
    simp only [hnodes.find? hn]
    exact Node.typeBy_mono henv (fun x hx u hu => ih x (n.2 x hx) hu) ht

theorem Coherent.mono {nodes nodes' : Array Node} {env env' : Env} {types : Types}
    (h : Coherent ∅ nodes env types) (hnodes : Arena.Extends nodes nodes')
    (henv : env.Extends env') : Coherent ∅ nodes' env' types :=
  ⟨h.knows, fun id t ht => typeOf_mono hnodes henv (h.follows id t ht)⟩

theorem Term.operands_node (place : Nat → NodeId) (t : Term) :
    (t.node place).operands = t.operands.map place := by
  cases t <;> rfl

theorem Sketch.line_of_mem_order {s : Sketch} {i : Nat} (hi : i ∈ s.order) :
    ∃ t, s.lines[i]? = some t := by
  have hle : i ≤ s.above.length := (Dag.mem_postorder.1 hi).le
  have hlt : i < s.lines.length := by simp [Sketch.lines]; omega
  exact ⟨_, List.getElem?_eq_getElem hlt⟩

theorem Sketch.operands_dag {s : Sketch} {i : Nat} {t : Term} (hi : s.lines[i]? = some t) :
    s.dag.operands i = t.operands := by
  change s.operandsOf i = _
  rw [operandsOf, hi]

theorem Sketch.idxOf_operand_lt (s : Sketch) {i x : Nat} {t : Term} (hi : i ∈ s.order)
    (ht : s.lines[i]? = some t) (hx : x ∈ t.operands) : s.order.idxOf x < s.order.idxOf i :=
  (s.dag.visited_postorder _).operandsFirst.idxOf_lt hi (operands_dag ht ▸ hx)

theorem Sketch.idxOf_getElem_order (s : Sketch) {j : Nat} (hj : j < s.order.length) :
    s.order.idxOf s.order[j] = j :=
  (s.dag.nodup_postorder _).idxOf_getElem j hj

/-- An expression that is appended names nodes before it only. -/
theorem Arena.Ordered.intern {a : Arena} (h : Ordered a.nodes) (s : Sketch) :
    Ordered (a.intern s).1.nodes := by
  intro id n hn x hx
  simp only [Arena.intern] at hn
  by_cases hlt : id < a.nodes.size
  · rw [Array.getElem?_append_left hlt] at hn
    exact h id n hn x hx
  · have hle : a.nodes.size ≤ id := Nat.not_lt.1 hlt
    rw [Array.getElem?_append_right hle, List.getElem?_toArray, Sketch.nodes] at hn
    rw [getElem?_filterMap_of_isSome fun i hi => by
      obtain ⟨t, ht⟩ := s.line_of_mem_order hi
      exact ⟨_, by rw [ht, Option.map_some]⟩] at hn
    set j := id - a.nodes.size with hj
    obtain ⟨i, hi, hn⟩ := Option.bind_eq_some_iff.1 hn
    obtain ⟨t, ht, rfl⟩ := Option.map_eq_some_iff.1 hn
    rw [Term.operands_node] at hx
    obtain ⟨y, hy, rfl⟩ := List.mem_map.1 hx
    obtain ⟨hjlt, hij⟩ := List.getElem?_eq_some_iff.1 hi
    have hidx : s.order.idxOf y < j := by
      have hlt := s.idxOf_operand_lt (List.mem_of_getElem? hi) ht hy
      rwa [← hij, s.idxOf_getElem_order hjlt] at hlt
    change a.nodes.size + s.order.idxOf y < id
    rw [← Nat.add_sub_cancel' hle]
    exact Nat.add_lt_add_left hidx _

/-- Whether an expression reads the inputs of the neuron `n` only. -/
def ReadsOwn (nodes : Array Node) (n : NeuronId) (root : NodeId) : Prop :=
  ∀ (x : NodeId) (m : NeuronId), (Arena.dag nodes).Reaches root x → nodes[x]? = some (.input m) →
    m = n

namespace Network

theorem layer_eq_ok {net : Network} {l : LayerId} {layer : Layer} :
    net.layer l = .ok layer ↔ net.layers[l]? = some layer := by
  unfold Network.layer
  split <;> simp_all

theorem neuron_eq_ok {net : Network} {n : NeuronId} {x : Neuron} :
    net.neuron n = .ok x ↔ net.neurons[n]? = some x := by
  unfold Network.neuron
  split <;> simp_all

def positionOf (net : Network) (n : NeuronId) : Nat :=
  match net.neurons[n]? with
  | some x => x.position
  | none => 0

/-- The positions of a neuron's sources in their layers. -/
def sourcePositions (net : Network) (x : Neuron) : List Nat := x.sources.map net.positionOf

/-- Two neurons that one loop body computes: their sources lie at the same offsets, and unless one
of them reads foreign inputs, their expressions match. -/
def Congruent (net : Network) (n m : NeuronId) : Prop :=
  ∃ x y v w, net.neurons[n]? = some x ∧ net.neurons[m]? = some y ∧
    x.forward = some v ∧ y.forward = some w ∧ x.sources.length = y.sources.length ∧
    Pass.offsets (net.sourcePositions x) = Pass.offsets (net.sourcePositions y) ∧
    (ReadsOwn net.arena.nodes n v → ReadsOwn net.arena.nodes m w →
      ∃ f, f v = w ∧ Matches ∅ net.arena.nodes net.env ((Arena.dag net.arena.nodes).Reaches v) f)

/-- Ensembles that cover some neurons of a layer in order, from the position `p` on. -/
inductive Tiles (net : Network) (l : LayerId) : Nat → List Ensemble → List NeuronId → Prop
  | nil (p : Nat) : Tiles net l p [] []
  | cons {e : Ensemble} {es : List Ensemble} {ns : List NeuronId} (hl : e.layer = l)
    (hc : ∀ n ∈ e.others, net.Congruent n e.representative) (h : Tiles net l e.stop es ns) :
    Tiles net l e.start (e :: es) (e.neurons ++ ns)

/-- Operands come before their users, the types remembered are coherent, each neuron stands at its
place, and the members of stored ensembles are congruent. -/
structure WellFormed (net : Network) : Prop where
  ordered : Arena.Ordered net.arena.nodes
  coherent : Coherent ∅ net.arena.nodes net.env net.arena.types
  placed : ∀ (l : LayerId) (layer : Layer) (p : Nat) (n : NeuronId), net.layers[l]? = some layer →
    layer.neurons[p]? = some n → ∃ x, net.neurons[n]? = some x ∧ x.layer = l ∧ x.position = p
  listed : ∀ (n : NeuronId) (x : Neuron), net.neurons[n]? = some x →
    ∃ layer, net.layers[x.layer]? = some layer ∧ layer.neurons[x.position]? = some n
  sourced : ∀ (n : NeuronId) (x : Neuron), net.neurons[n]? = some x →
    ∀ s ∈ x.sources, ∃ y, net.neurons[s]? = some y
  grouped : ∀ (l : LayerId) (layer : Layer) (es : List Ensemble), net.layers[l]? = some layer →
    layer.ensembles = some es → net.Tiles l 0 es layer.neurons

/-- What changes while a network is built. Nodes are only added, neurons stay where they are, and a
layer whose ensembles are stored keeps its neurons with their sources and expressions. -/
structure Evolves (net net' : Network) : Prop where
  nodes : Arena.Extends net.arena.nodes net'.arena.nodes
  neurons : ∀ (n : NeuronId) (x : Neuron), net.neurons[n]? = some x →
    ∃ y, net'.neurons[n]? = some y ∧ y.kind = x.kind ∧ y.layer = x.layer ∧ y.position = x.position
  stored : ∀ (l : LayerId) (layer : Layer) (es : List Ensemble), net'.layers[l]? = some layer →
    layer.ensembles = some es → net.layers[l]? = some layer ∧ ∀ n ∈ layer.neurons,
      ∀ x, net.neurons[n]? = some x →
        ∃ y, net'.neurons[n]? = some y ∧ y.sources = x.sources ∧ y.forward = x.forward

theorem Evolves.sourcePositions {net net' : Network} (h : net.Evolves net') {x y : Neuron}
    (hx : ∀ s ∈ x.sources, ∃ z, net.neurons[s]? = some z) (hs : y.sources = x.sources) :
    net'.sourcePositions y = net.sourcePositions x := by
  rw [Network.sourcePositions, Network.sourcePositions, hs]
  refine List.map_congr_left fun s hm => ?_
  obtain ⟨z, hz⟩ := hx s hm
  obtain ⟨z', hz', _, _, hp⟩ := h.neurons s z hz
  simp only [positionOf, hz, hz', hp]

theorem WellFormed.neuron_of_mem {net : Network} (hw : net.WellFormed) {l : LayerId} {layer : Layer}
    (hl : net.layers[l]? = some layer) {n : NeuronId} (hn : n ∈ layer.neurons) :
    ∃ x, net.neurons[n]? = some x ∧ x.layer = l := by
  obtain ⟨p, hp⟩ := List.mem_iff_getElem?.1 hn
  obtain ⟨x, hx, hxl, _⟩ := hw.placed l layer p n hl hp
  exact ⟨x, hx, hxl⟩

theorem env_input {net : Network} {n : NeuronId} {x : Neuron} (hx : net.neurons[n]? = some x) :
    net.env.input n = .ok x.inputTy := by
  simp [env, neuron, hx, Except.map]

end Network

/-- What matches still matches after nodes have been added, if inputs that were of one type are. -/
theorem Matches.extend {nodes nodes' : Array Node} {env env' : Env} {v : NodeId}
    {f : NodeId → NodeId}
    (h : Matches ∅ nodes env ((Arena.dag nodes).Reaches v) f) (hnodes : Arena.Extends nodes nodes')
    (hinputs : ∀ x n, (Arena.dag nodes).Reaches v x → nodes[x]? = some (.input n) →
      typeOf nodes' env' (f x) = typeOf nodes' env' x) :
    Matches ∅ nodes' env' ((Arena.dag nodes').Reaches v) f := by
  obtain ⟨m, _, hm, _⟩ := (h.corresponding v (.refl _ v)).alike
  have hv : v < nodes.size := (Array.getElem?_eq_some_iff.1 hm).1
  refine ⟨⟨fun x hx y hy => hx.trans (.operand hy), ?_, ?_⟩, ?_⟩
  · intro x hx
    rw [hnodes.reaches_iff hv] at hx
    obtain ⟨m, n, hm, hn, _⟩ := (h.corresponding x hx).alike
    change Arena.operandsOf nodes' (f x) = (Arena.operandsOf nodes' x).map f
    rw [hnodes.operandsOf hm, hnodes.operandsOf hn]
    exact h.operands x hx
  · intro x y hx hy
    rw [hnodes.reaches_iff hv] at hx hy
    exact h.injective x y hx hy
  · intro x hx
    rw [hnodes.reaches_iff hv] at hx
    obtain ⟨m, n, hm, hn, hl, hk⟩ := (h.corresponding x hx).alike
    refine ⟨⟨m, n, hnodes _ _ hm, hnodes _ _ hn, hl, hk⟩, fun i hi => hinputs x i hx ?_⟩
    rw [hnodes _ _ hm] at hi
    rwa [hm]

theorem Neuron.inputTy_congr {x y : Neuron} (hk : y.kind = x.kind) (hs : y.sources = x.sources) :
    y.inputTy = x.inputTy := by
  simp [inputTy, isInput, hk, hs]

theorem typeOf_input {net : Network} (ho : Arena.Ordered net.arena.nodes) {id : NodeId}
    {n : NeuronId} {x : Neuron} (hid : net.arena.nodes[id]? = some (.input n))
    (hx : net.neurons[n]? = some x) : typeOf net.arena.nodes net.env id = .ok x.inputTy := by
  rw [typeOf_node ho hid]
  exact orDefect_eq_ok.2 (Network.env_input hx)

/-- The input nodes that match belong to neurons whose inputs have one type. -/
theorem Matches.inputTy_eq {net : Network} (ho : Arena.Ordered net.arena.nodes) {n m : NeuronId}
    {x y : Neuron} {v : NodeId} {f : NodeId → NodeId}
    (hf : Matches ∅ net.arena.nodes net.env ((Arena.dag net.arena.nodes).Reaches v) f)
    (hx : net.neurons[n]? = some x) (hy : net.neurons[m]? = some y)
    (hv : ReadsOwn net.arena.nodes n v) (hw : ReadsOwn net.arena.nodes m (f v)) {i : NodeId}
    {k : NeuronId} (hi : (Arena.dag net.arena.nodes).Reaches v i)
    (hk : net.arena.nodes[i]? = some (.input k)) :
    k = n ∧ net.arena.nodes[f i]? = some (.input m) ∧ y.inputTy = x.inputTy := by
  obtain rfl : k = n := hv i k hi hk
  obtain ⟨a, b, ha, hb, hl, _⟩ := (hf.corresponding i hi).alike
  obtain rfl : a = .input k := by simpa [ha] using hk
  cases hl with
  | input _ j =>
    have hreach := (hf.toRenames.reaches_image_iff (.refl _ v)).2 ⟨i, hi, rfl⟩
    obtain rfl : j = m := hw (f i) j hreach hb
    refine ⟨rfl, hb, ?_⟩
    have ht := (hf.corresponding i hi).inputs k hk
    rw [← typeOf, ← typeOf, typeOf_input ho hb hy, typeOf_input ho hk hx] at ht
    exact Except.ok.inj ht

namespace Network

theorem Congruent.evolve {net net' : Network} (hw : net.WellFormed) (h : net.Evolves net')
    (ho : Arena.Ordered net'.arena.nodes) {n m : NeuronId} (hc : net.Congruent n m)
    (hkept : ∀ k, k = n ∨ k = m → ∀ x, net.neurons[k]? = some x →
      ∃ y, net'.neurons[k]? = some y ∧ y.sources = x.sources ∧ y.forward = x.forward) :
    net'.Congruent n m := by
  obtain ⟨x, y, v, w, hx, hy, hxv, hyw, hlen, hoff, hmatch⟩ := hc
  obtain ⟨x', hx', hxs, hxf⟩ := hkept n (.inl rfl) x hx
  obtain ⟨y', hy', hys, hyf⟩ := hkept m (.inr rfl) y hy
  have hxk : x'.kind = x.kind := by
    obtain ⟨z, hz, hk, _⟩ := h.neurons n x hx
    obtain rfl : z = x' := by simpa [hz] using hx'
    exact hk
  have hyk : y'.kind = y.kind := by
    obtain ⟨z, hz, hk, _⟩ := h.neurons m y hy
    obtain rfl : z = y' := by simpa [hz] using hy'
    exact hk
  refine ⟨x', y', v, w, hx', hy', hxf.trans hxv, hyf.trans hyw, by rw [hxs, hys, hlen], ?_, ?_⟩
  · rw [h.sourcePositions (hw.sourced n x hx) hxs, h.sourcePositions (hw.sourced m y hy) hys, hoff]
  · intro hv' hw'
    have hv : ReadsOwn net.arena.nodes n v := fun i k hi hk => hv' i k (h.nodes.reaches hi)
      (h.nodes _ _ hk)
    have hw'' : ReadsOwn net.arena.nodes m w := fun i k hi hk => hw' i k (h.nodes.reaches hi)
      (h.nodes _ _ hk)
    obtain ⟨f, rfl, hf⟩ := hmatch hv hw''
    refine ⟨f, rfl, hf.extend h.nodes fun i k hi hk => ?_⟩
    obtain ⟨rfl, hfi, hty⟩ := hf.inputTy_eq hw.ordered hx hy hv hw'' hi hk
    rw [typeOf_input ho (h.nodes _ _ hfi) hy', typeOf_input ho (h.nodes _ _ hk) hx']
    rw [Neuron.inputTy_congr hxk hxs, Neuron.inputTy_congr hyk hys, hty]

theorem Tiles.imp {net net' : Network} {l : LayerId} {p : Nat} {es : List Ensemble}
    {ns : List NeuronId} (h : net.Tiles l p es ns)
    (hc : ∀ n ∈ ns, ∀ m ∈ ns, net.Congruent n m → net'.Congruent n m) : net'.Tiles l p es ns := by
  induction h with
  | nil p => exact .nil p
  | @cons e es ns hl hcong h ih =>
    refine .cons hl (fun n hn => hc n ?_ _ ?_ (hcong n hn)) (ih fun n hn m hm => hc n ?_ m ?_)
    · simp [Ensemble.neurons, hn]
    · simp [Ensemble.neurons]
    · simp [hn]
    · simp [hm]

/-- What is stored about ensembles stays true while the network grows. -/
theorem WellFormed.grouped_evolve {net net' : Network} (hw : net.WellFormed) (h : net.Evolves net')
    (ho : Arena.Ordered net'.arena.nodes) {l : LayerId} {layer : Layer} {es : List Ensemble}
    (hl : net'.layers[l]? = some layer) (hes : layer.ensembles = some es) :
    net'.Tiles l 0 es layer.neurons := by
  obtain ⟨hl, hkept⟩ := h.stored l layer es hl hes
  refine (hw.grouped l layer es hl hes).imp fun n hn m hm hc => hc.evolve hw h ho ?_
  rintro k (rfl | rfl) x hx
  · exact hkept k hn x hx
  · exact hkept k hm x hx

end Network

end Synapse
