import Mathlib.Tactic
import Synapse.Proofs.Freshness

namespace Synapse

/-- A pass ends in a defect. -/
def Pass.Breaks {α : Type} (x : Pass α) (s : Session) : Prop :=
  ∃ d, x.result s = .error (.defect d)

/-- The type of its inputs tells how many sources a neuron has. -/
theorem Neuron.sources_length_eq {x y : Neuron} (hx : x.isInput = true → x.sources = [])
    (hy : y.isInput = true → y.sources = []) (hxlt : x.sources.length < UInt32.size)
    (hylt : y.sources.length < UInt32.size) (h : x.inputTy = y.inputTy) :
    x.sources.length = y.sources.length := by
  unfold inputTy at h
  cases hxin : x.isInput with
  | true =>
    cases hyin : y.isInput with
    | true => rw [hx hxin, hy hyin]
    | false => simp [hxin, hyin, Ty.vectorOf] at h
  | false =>
    cases hyin : y.isInput with
    | true => simp [hxin, hyin, Ty.vectorOf] at h
    | false =>
      have hmod : x.sources.length % UInt32.size = y.sources.length % UInt32.size := by
        simpa [hxin, hyin, Ty.vectorOf, ← UInt32.toNat_inj] using h
      rwa [Nat.mod_eq_of_lt hxlt, Nat.mod_eq_of_lt hylt] at hmod

namespace Network

variable {net : Network} {n m : NeuronId}

theorem exists_input_of_readsInput {v : NodeId} (hv : net.forward? n = some v)
    (h : net.readsInput n = true) :
    ∃ i, (Arena.dag net.arena.nodes).Reaches v i ∧ net.arena.nodes[i]? = some (.input n) := by
  simp only [readsInput, hv, List.contains_iff_mem] at h
  exact mem_inputNeurons.1 h

/-- A neuron that reads its inputs has as many sources as each one of its shape. -/
theorem Ready.arity_of_reader (hr : net.Ready)
    (hsmall : ∀ x ∈ net.neurons, x.sources.length < UInt32.size) {x y : Neuron}
    (hx : net.neurons[n]? = some x) (hy : net.neurons[m]? = some y)
    (hshape : net.oneShape n m = true) (hreads : net.readsInput n = true) :
    x.sources.length = y.sources.length := by
  have hown := hr.owned hx
  have hown' := hr.owned hy
  obtain ⟨v, w, f, hv, hw, rfl, hmatch⟩ := (oneShape_iff hr.wellFormed.ordered hown hown').1 hshape
  obtain ⟨i, hi, hinput⟩ := exists_input_of_readsInput hv hreads
  obtain ⟨_, _, hty⟩ := hmatch.inputTy_eq hr.wellFormed.ordered hx hy (hown.reads hv).2
    (hown'.reads hw).2 hi hinput
  exact Neuron.sources_length_eq (hr.built.inputs n x hx) (hr.built.inputs m y hy)
    (hsmall x (Array.mem_of_getElem? hx)) (hsmall y (Array.mem_of_getElem? hy)) hty.symm

theorem Clash.inputless (hr : net.Ready)
    (hsmall : ∀ x ∈ net.neurons, x.sources.length < UInt32.size) {x y : Neuron}
    (hx : net.neurons[n]? = some x) (hy : net.neurons[m]? = some y) (h : net.Clash n m) :
    net.readsInput n = false ∧ net.readsInput m = false := by
  -- to clash is symmetric, so that one argument serves for both
  have hback := h.symm hr.wellFormed.ordered (hr.owned hx) (hr.owned hy)
  constructor <;> by_contra hreads
  · have hlen := hr.arity_of_reader hsmall hx hy h.1 (by simpa using hreads)
    exact h.2 (by rw [length_sourcesOf hx, length_sourcesOf hy, hlen])
  · have hlen := hr.arity_of_reader hsmall hy hx hback.1 (by simpa using hreads)
    exact hback.2 (by rw [length_sourcesOf hx, length_sourcesOf hy, hlen])

/-- Where grouping does not succeed it meets neurons that clash. -/
theorem grouping_defect_iff {l : LayerId} {ns : List NeuronId} :
    (∃ d, net.grouping l ns = .error (.defect d)) ↔ ¬ ∃ es, net.grouping l ns = .ok es := by
  cases hgrouping : net.grouping l ns with
  | ok es => simp
  | error e =>
    obtain ⟨n, m, _, rfl⟩ := grouping_eq_error hgrouping
    simp

theorem not_isChain_clash {ns : List NeuronId} : (¬ ns.IsChain fun n m => ¬ net.Clash n m) ↔
    ∃ p n m, ns[p]? = some n ∧ ns[p + 1]? = some m ∧ net.Clash n m := by
  rw [List.isChain_iff_getElem]
  simp only [not_forall, not_not]
  constructor
  · rintro ⟨p, hp, hclash⟩
    exact ⟨p, _, _, List.getElem?_eq_getElem (by omega), List.getElem?_eq_getElem hp, hclash⟩
  · rintro ⟨p, n, m, hn, hm, hclash⟩
    obtain ⟨_, rfl⟩ := List.getElem?_eq_some_iff.1 hn
    obtain ⟨hp, rfl⟩ := List.getElem?_eq_some_iff.1 hm
    exact ⟨p, hp, hclash⟩

theorem groupAll_eq_error {e : Failure} (h : net.groupAll = .error e) : ∃ d, e = .defect d := by
  obtain ⟨before, l, after, hls, _, he⟩ := forM_eq_error.1 h
  have hl : l ∈ List.range net.layers.size := hls ▸ List.mem_append_right _ List.mem_cons_self
  obtain ⟨layer, hlayer⟩ : ∃ layer, net.layers[l]? = some layer :=
    ⟨_, Array.getElem?_eq_getElem (List.mem_range.1 hl)⟩
  rw [groupingAt_eq hlayer] at he
  cases hgrouping : net.grouping l layer.neurons with
  | ok es => simp [hgrouping, Except.map] at he
  | error e' =>
    obtain ⟨n, m, _, rfl⟩ := grouping_eq_error hgrouping
    rw [hgrouping] at he
    exact ⟨_, (Except.error.inj he).symm⟩

end Network

namespace Network.Ready

variable {s : Session} {n m : NeuronId} {x y : Neuron}

theorem clash_iff (hr : s.net.Ready) (hx : s.net.neurons[n]? = some x)
    (hy : s.net.neurons[m]? = some y) : s.net.Clash n m ↔
      x.sources.length ≠ y.sources.length ∧ ∃ v w, x.forward = some v ∧ y.forward = some w ∧
        (Pass.sameShape v w).result s = .ok true := by
  have hn : s.net.forward? n = x.forward := by simp [forward?, hx]
  have hm : s.net.forward? m = y.forward := by simp [forward?, hy]
  have hresult : ∀ v w, x.forward = some v → y.forward = some w →
      (Pass.sameShape v w).result s = .ok (s.net.oneShape n m) := fun v w hv hw =>
    (Pass.Returns.oneShape hr.wellFormed (hr.owned hx) (hr.owned hy) (hn.trans hv)
      (hm.trans hw)).result hr.wellFormed
  rw [Clash, length_sourcesOf hx, length_sourcesOf hy, and_comm]
  refine and_congr_right fun _ => ⟨fun hshape => ?_, ?_⟩
  · obtain ⟨v, w, hv, hw⟩ := forward?_of_oneShape hshape
    rw [hn] at hv
    rw [hm] at hw
    exact ⟨v, w, hv, hw, by rw [hresult v w hv hw, hshape]⟩
  · rintro ⟨v, w, hv, hw, hsame⟩
    rw [hresult v w hv hw] at hsame
    exact Except.ok.inj hsame

theorem mergeable_breaks_iff (hr : s.net.Ready) (hx : s.net.neurons[n]? = some x)
    (hy : s.net.neurons[m]? = some y) : (Pass.mergeable n m).Breaks s ↔ s.net.Clash n m := by
  have hmerging := Pass.Answers.merging hr.wellFormed (hr.owned hx) (hr.owned hy)
  rw [Pass.Breaks, hmerging.result hr.wellFormed, merging]
  split <;> simp [*]

/-- Grouping a layer breaks at two neurons, side by side, that cannot be compared. -/
theorem collect_breaks_iff (hr : s.net.Ready) {l : LayerId} {layer : Layer}
    (hl : s.net.layers[l]? = some layer) : (Pass.collect l).Breaks s ↔
      ∃ p n m, layer.neurons[p]? = some n ∧ layer.neurons[p + 1]? = some m ∧
        (Pass.mergeable n m).Breaks s := by
  rw [Pass.Breaks, (hr.collect hl).result hr.wellFormed, grouping_defect_iff,
    grouping_eq_ok hr.wellFormed.ordered l (hr.owned_layer hl), not_isChain_clash]
  -- neurons of a layer are there, so that to clash and to break are the same for them
  refine exists_congr fun p => exists_congr fun n => exists_congr fun m => ?_
  refine and_congr_right fun hn => and_congr_right fun hm => ?_
  obtain ⟨x, hx, _⟩ := hr.wellFormed.neuron_of_mem hl (List.mem_of_getElem? hn)
  obtain ⟨y, hy, _⟩ := hr.wellFormed.neuron_of_mem hl (List.mem_of_getElem? hm)
  exact (hr.mergeable_breaks_iff hx hy).symm

theorem group_breaks_iff (hr : s.net.Ready) :
    Pass.group.Breaks s ↔ ∃ l < s.net.layers.size, (Pass.collect l).Breaks s := by
  have hlayer : ∀ l < s.net.layers.size,
      ((Pass.collect l).Breaks s ↔ ¬ ∃ es, s.net.groupingAt l = .ok es) := by
    intro l hl
    have hl := Array.getElem?_eq_getElem hl
    rw [Pass.Breaks, (hr.collect hl).result hr.wellFormed, grouping_defect_iff, groupingAt_eq hl]
  have hall : Pass.group.Breaks s ↔ s.net.groupAll ≠ .ok () := by
    rw [Pass.Breaks, Session.Reachable.group_result hr]
    cases hgroup : s.net.groupAll with
    | ok _ => simp
    | error e =>
      obtain ⟨d, rfl⟩ := groupAll_eq_error hgroup
      simp
  rw [hall, Ne, groupAll_eq_ok]
  simp only [not_forall, exists_prop]
  exact exists_congr fun l => and_congr_right fun hl => (hlayer l hl).symm

/-- Once all layers are grouped, nothing is left that could break. -/
theorem not_lower_breaks (hr : s.net.Ready) (hcheck : Pass.Returns s.net Pass.check ())
    (hgroup : s.net.groupAll = .ok ()) : ¬ Pass.lower.Breaks s := by
  have hgroups : ∀ q ∈ s.net.loweredLayers,
      Pass.Yields s.net (Pass.collect q.2) fun _ => True := by
    intro q hq
    have hl := getElem?_of_mem_loweredLayers hq
    obtain ⟨hlt, _⟩ := Array.getElem?_eq_some_iff.1 hl
    obtain ⟨es, hes⟩ := groupAll_eq_ok.1 hgroup q.2 hlt
    rw [groupingAt_eq hl] at hes
    exact (hr.collect hl).imp fun r hresult => ⟨es, hresult.trans hes, trivial⟩
  have hstops := (Pass.Answers.stopsAt_lower hr hcheck hgroups).result hr.wellFormed
  rintro ⟨d, hd⟩
  rw [hd] at hstops
  cases hgap : s.net.firstGap? s.net.loweredLayers with
  | none =>
    rw [hgap] at hstops
    obtain ⟨_, hk⟩ := hstops
    cases hk
  | some p =>
    rw [hgap] at hstops
    cases hstops

end Network.Ready

theorem Session.Reachable.compile_breaks_iff {s : Session} (hs : s.Reachable)
    (hcheck : Pass.check.result s = .ok ()) (o : Options) :
    (Pass.compile o).Breaks s ↔ Pass.group.Breaks s := by
  have hr := hs.ready hcheck
  have hresult := hs.compile_result hcheck o
  have hkernel : (Pass.compile o).Breaks s ↔
      ∃ d, ((Pass.compile o).result s).map Compiled.kernel = .error (.defect d) := by
    rw [Pass.Breaks]
    cases (Pass.compile o).result s <;> simp [Except.map]
  rw [hkernel, hresult, Pass.Breaks, Session.Reachable.group_result hr]
  cases hgroup : s.net.groupAll with
  | error e => simp [bind, Except.bind]
  | ok _ =>
    constructor
    · intro hlower
      exact absurd hlower (hr.not_lower_breaks (hs.check_returns hcheck) hgroup)
    · rintro ⟨d, hd⟩
      cases hd

/-- In a session that passes the type check, neurons of one shape have equally many sources unless
neither of them reads its inputs. To compare two neurons breaks exactly if they are of one shape but
differ in that number, to group a layer breaks exactly if it does so for two of its neurons that
stand side by side, and to group all layers or to compile breaks exactly if one layer does. -/
theorem equal_shape_equal_arity_or_inputless {s : Session} (hs : s.Reachable)
    (hsmall : ∀ x ∈ s.net.neurons, x.sources.length < UInt32.size)
    (hcheck : Pass.check.result s = .ok ()) :
    (∀ (n m : NeuronId) (x y : Neuron), s.net.neurons[n]? = some x → s.net.neurons[m]? = some y →
      (∀ v w, x.forward = some v → y.forward = some w → (Pass.sameShape v w).result s = .ok true →
        x.sources.length = y.sources.length ∨
          s.net.readsInput n = false ∧ s.net.readsInput m = false) ∧
      ((Pass.mergeable n m).Breaks s ↔
        x.sources.length ≠ y.sources.length ∧ ∃ v w, x.forward = some v ∧ y.forward = some w ∧
          (Pass.sameShape v w).result s = .ok true)) ∧
    (∀ (l : LayerId) (layer : Layer), s.net.layers[l]? = some layer →
      ((Pass.collect l).Breaks s ↔ ∃ p n m, layer.neurons[p]? = some n ∧
        layer.neurons[p + 1]? = some m ∧ (Pass.mergeable n m).Breaks s)) ∧
    (Pass.group.Breaks s ↔ ∃ l < s.net.layers.size, (Pass.collect l).Breaks s) ∧
    ∀ o, (Pass.compile o).Breaks s ↔ Pass.group.Breaks s := by
  have hr := hs.ready hcheck
  refine ⟨fun n m x y hx hy => ⟨fun v w hv hw hsame => ?_, ?_⟩,
    fun l layer hl => hr.collect_breaks_iff hl, hr.group_breaks_iff, hs.compile_breaks_iff hcheck⟩
  · by_cases hlen : x.sources.length = y.sources.length
    · exact .inl hlen
    · have hclash : s.net.Clash n m := (hr.clash_iff hx hy).2 ⟨hlen, v, w, hv, hw, hsame⟩
      exact .inr (hclash.inputless hr hsmall hx hy)
  · rw [hr.mergeable_breaks_iff hx hy, hr.clash_iff hx hy]

theorem pyramid_equal_arity : pyramid.Reachable ∧ Pass.check.result pyramid = .ok () ∧
    (Pass.sameShape 5 9).result pyramid = .ok true ∧
    (∃ x y, pyramid.net.neurons[2]? = some x ∧ pyramid.net.neurons[3]? = some y ∧
      x.sources.length = y.sources.length) ∧
    ¬ Pass.group.Breaks pyramid ∧ ∀ o, ¬ (Pass.compile o).Breaks pyramid := by
  have hs : pyramid.Reachable := Session.reachable_ofRequests _
  have hsmall : ∀ x ∈ pyramid.net.neurons, x.sources.length < UInt32.size := by decide +kernel
  have hcheck : Pass.check.result pyramid = .ok () := by decide +kernel
  have hsame : (Pass.sameShape 5 9).result pyramid = .ok true := by decide +kernel
  have hv : pyramid.net.forward? 2 = some 5 := by decide +kernel
  have hw : pyramid.net.forward? 3 = some 9 := by decide +kernel
  have hgroup : Pass.group.result pyramid = .ok () := by decide +kernel
  have hreads : pyramid.net.readsInput 2 = true := by decide +kernel
  obtain ⟨x, hx, hv⟩ := Option.bind_eq_some_iff.1 hv
  obtain ⟨y, hy, hw⟩ := Option.bind_eq_some_iff.1 hw
  obtain ⟨hpairs, _, _, hcompile⟩ := equal_shape_equal_arity_or_inputless hs hsmall hcheck
  have hwhole : ¬ Pass.group.Breaks pyramid := by
    rintro ⟨d, hd⟩
    rw [hgroup] at hd
    cases hd
  refine ⟨hs, hcheck, hsame, ⟨x, y, hx, hy, ?_⟩, hwhole, fun o => mt (hcompile o).1 hwhole⟩
  rcases (hpairs 2 3 x y hx hy).1 5 9 hv hw hsame with heq | ⟨hnone, _⟩
  · exact heq
  · rw [hreads] at hnone
    cases hnone

/-- Two neurons with the literals 1.0 and 2.0, and one of them with a source that it does not
read. -/
def lopsided : Session := .ofRequests [.addLayer, .addNeuron 0 .hidden, .addNeuron 0 .hidden,
  .connect 0 1,
  .setForward 0 { above := [], last := .literal (.real ⟨0x3FF0000000000000⟩) },
  .setForward 1 { above := [], last := .literal (.real ⟨0x4000000000000000⟩) }]

/-- The type check lets neurons of one shape with different numbers of sources pass, and then
nothing that compares them succeeds. -/
theorem lopsided_breaks : lopsided.Reachable ∧ Pass.check.result lopsided = .ok () ∧
    (lopsided.net.neurons.toList.map fun x => (x.forward, x.sources.length)) =
      [(some 0, 0), (some 1, 1)] ∧
    (Pass.sameShape 0 1).result lopsided = .ok true ∧
    (Pass.mergeable 1 0).result lopsided = .error (.defect (.arity 1 0 1 0)) ∧
    (Pass.collect 0).result lopsided = .error (.defect (.arity 1 0 1 0)) ∧
    Pass.group.result lopsided = .error (.defect (.arity 1 0 1 0)) ∧
    ((Pass.compile {}).result lopsided).map Compiled.listing =
      .error (.defect (.arity 1 0 1 0)) := by
  refine ⟨Session.reachable_ofRequests _, ?_⟩
  decide +kernel

end Synapse
