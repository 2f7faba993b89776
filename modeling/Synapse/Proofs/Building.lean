import Mathlib.Tactic
import Synapse.Network.Construction
import Synapse.Proofs.WellFormed

namespace Synapse.Network

/-- Where a neuron stands, and of what kind it is. -/
def place (x : Neuron) : NeuronKind × LayerId × Nat := (x.kind, x.layer, x.position)

/-- The same neurons at the same places. -/
structure SamePlaces (net net' : Network) : Prop where
  layers : ∀ l : LayerId, net'.layers[l]?.map Layer.neurons = net.layers[l]?.map Layer.neurons
  neurons : ∀ n : NeuronId, net'.neurons[n]?.map place = net.neurons[n]?.map place

theorem SamePlaces.neuron {net net' : Network} (h : net.SamePlaces net') {n : NeuronId} {x : Neuron}
    (hx : net.neurons[n]? = some x) :
    ∃ y, net'.neurons[n]? = some y ∧ y.kind = x.kind ∧ y.layer = x.layer ∧
      y.position = x.position := by
  have hp := h.neurons n
  rw [hx, Option.map_some] at hp
  obtain ⟨y, hy, he⟩ := Option.map_eq_some_iff.1 hp
  simp only [place, Prod.mk.injEq] at he
  exact ⟨y, hy, he⟩

theorem SamePlaces.symm {net net' : Network} (h : net.SamePlaces net') : net'.SamePlaces net :=
  ⟨fun l => (h.layers l).symm, fun n => (h.neurons n).symm⟩

theorem SamePlaces.layer {net net' : Network} (h : net.SamePlaces net') {l : LayerId}
    {layer : Layer} (hl : net.layers[l]? = some layer) :
    ∃ layer', net'.layers[l]? = some layer' ∧ layer'.neurons = layer.neurons := by
  have hp := h.layers l
  rw [hl, Option.map_some] at hp
  exact Option.map_eq_some_iff.1 hp

theorem WellFormed.of_samePlaces {net net' : Network} (hw : net.WellFormed)
    (hp : net.SamePlaces net') (ho : Arena.Ordered net'.arena.nodes)
    (hc : Coherent ∅ net'.arena.nodes net'.env net'.arena.types)
    (hs : ∀ (n : NeuronId) (x : Neuron), net'.neurons[n]? = some x →
      ∀ s ∈ x.sources, ∃ y, net.neurons[s]? = some y)
    (hg : ∀ (l : LayerId) (layer : Layer) (es : List Ensemble), net'.layers[l]? = some layer →
      layer.ensembles = some es → net'.Tiles l 0 es layer.neurons) : net'.WellFormed := by
  refine ⟨ho, hc, ?_, ?_, ?_, hg⟩
  · intro l layer' p n hl hn
    obtain ⟨layer, hl, he⟩ := hp.symm.layer hl
    obtain ⟨x, hx, hxl, hxp⟩ := hw.placed l layer p n hl (he ▸ hn)
    obtain ⟨y, hy, _, hyl, hyp⟩ := hp.neuron hx
    exact ⟨y, hy, hyl.trans hxl, hyp.trans hxp⟩
  · intro n y hy
    obtain ⟨x, hx, _, hxl, hxp⟩ := hp.symm.neuron hy
    obtain ⟨layer, hl, hn⟩ := hw.listed n x hx
    obtain ⟨layer', hl', he⟩ := hp.layer hl
    exact ⟨layer', hxl ▸ hl', by rw [he, ← hxp, hn]⟩
  · intro n x hx s hm
    obtain ⟨y, hy⟩ := hs n x hx s hm
    obtain ⟨z, hz, _⟩ := hp.neuron hy
    exact ⟨z, hz⟩

theorem wellFormed_empty : ({} : Network).WellFormed := by
  refine ⟨?_, coherent_self _ _ _, ?_, ?_, ?_, ?_⟩ <;> intros <;> simp_all [Arena.Ordered]

theorem evolves_addLayer (net : Network) : net.Evolves net.addLayer.1 := by
  refine ⟨.refl _, fun n x hx => ⟨x, hx, rfl, rfl, rfl⟩, ?_⟩
  intro l layer es hl hes
  rcases of_push_some hl with hl | ⟨_, rfl⟩
  · exact ⟨hl, fun n _ x hx => ⟨x, hx, rfl, rfl⟩⟩
  · cases hes

theorem WellFormed.addLayer {net : Network} (hw : net.WellFormed) :
    net.addLayer.1.WellFormed := by
  refine ⟨hw.ordered, hw.coherent, ?_, ?_, hw.sourced,
    fun l layer es => hw.grouped_evolve net.evolves_addLayer hw.ordered⟩
  · intro l layer p n hl hn
    rcases of_push_some hl with hl | ⟨_, rfl⟩
    · exact hw.placed l layer p n hl hn
    · simp at hn
  · intro n x hx
    obtain ⟨layer, hl, hn⟩ := hw.listed n x hx
    exact ⟨layer, push_some hl _, hn⟩

theorem env_extends {net net' : Network}
    (h : ∀ (n : NeuronId) (x : Neuron), net.neurons[n]? = some x →
      ∃ y, net'.neurons[n]? = some y ∧ y.inputTy = x.inputTy) : net.env.Extends net'.env := by
  refine ⟨?_, fun v t ht => (by cases ht), fun s t ht => (by cases ht)⟩
  intro n t ht
  cases hx : net.neurons[n]? with
  | none => simp [env, Network.neuron, hx, Except.map] at ht
  | some x =>
    obtain ⟨y, hy, he⟩ := h n x hx
    rw [env_input hx] at ht
    rw [env_input hy, he, ht]

/-- A new neuron is the last one of its layer, for which nothing is stored any more. -/
theorem addNeuron_eq_ok {net net' : Network} {l : LayerId} {kind : NeuronKind} {id : NeuronId}
    (h : net.addNeuron l kind = .ok (net', id)) :
    ∃ layer, net.layers[l]? = some layer ∧ net' = { net with
      neurons := net.neurons.push { kind, layer := l, position := layer.neurons.length }
      layers := net.layers.setIfInBounds l { neurons := layer.neurons ++ [net.neurons.size] } } := by
  obtain ⟨layer, hlayer, h⟩ := bind_eq_ok.1 h
  rw [layer_eq_ok] at hlayer
  simp only [pure, Except.pure, Except.ok.injEq, Prod.mk.injEq] at h
  exact ⟨layer, hlayer, h.1.symm⟩

theorem evolves_addNeuron {net net' : Network} {l : LayerId} {kind : NeuronKind} {id : NeuronId}
    (h : net.addNeuron l kind = .ok (net', id)) : net.Evolves net' := by
  obtain ⟨layer, _, rfl⟩ := addNeuron_eq_ok h
  refine ⟨.refl _, fun n x hx => ⟨x, push_some hx _, rfl, rfl, rfl⟩, ?_⟩
  intro j x es hj hes
  rcases of_setIfInBounds_some hj with hj | ⟨_, rfl⟩
  · exact ⟨hj, fun n _ y hy => ⟨y, push_some hy _, rfl, rfl⟩⟩
  · cases hes

theorem WellFormed.addNeuron {net net' : Network} {l : LayerId} {kind : NeuronKind} {id : NeuronId}
    (hw : net.WellFormed) (h : net.addNeuron l kind = .ok (net', id)) : net'.WellFormed := by
  have hevolves := evolves_addNeuron h
  obtain ⟨layer, hlayer, rfl⟩ := addNeuron_eq_ok h
  have hlt : l < net.layers.size := (Array.getElem?_eq_some_iff.1 hlayer).1
  set new : Neuron := { kind, layer := l, position := layer.neurons.length } with hnew
  set layer' : Layer := { neurons := layer.neurons ++ [net.neurons.size] } with hlayer'
  refine ⟨hw.ordered, ?_, ?_, ?_, ?_, fun j x es => hw.grouped_evolve hevolves hw.ordered⟩
  · exact hw.coherent.mono (.refl _) (env_extends fun n x hx => ⟨x, push_some hx _, rfl⟩)
  · intro j x p n hj hn
    rcases of_setIfInBounds_some hj with hj | ⟨rfl, rfl⟩
    · obtain ⟨y, hy, hyl, hyp⟩ := hw.placed j x p n hj hn
      exact ⟨y, push_some hy _, hyl, hyp⟩
    · by_cases hp : p < layer.neurons.length
      · rw [hlayer', List.getElem?_append_left hp] at hn
        obtain ⟨y, hy, hyl, hyp⟩ := hw.placed j layer p n hlayer hn
        exact ⟨y, push_some hy _, hyl, hyp⟩
      · rw [hlayer', List.getElem?_append_right (by omega), List.getElem?_singleton] at hn
        split at hn
        · obtain rfl : net.neurons.size = n := Option.some.inj hn
          exact ⟨new, by simp, rfl, by simp [hnew]; omega⟩
        · cases hn
  · intro n x hx
    change ∃ y, (net.layers.setIfInBounds l layer')[x.layer]? = some y ∧ _
    rcases of_push_some hx with hx | ⟨hn, rfl⟩
    · obtain ⟨y, hy, hn⟩ := hw.listed n x hx
      by_cases hj : x.layer = l
      · obtain rfl : y = layer := by simpa [← hj, hy] using hlayer
        refine ⟨layer', by simp [hj, hlt], ?_⟩
        rw [hlayer', List.getElem?_append_left (List.getElem?_eq_some_iff.1 hn).1, hn]
      · exact ⟨y, by rw [Array.getElem?_setIfInBounds, if_neg (Ne.symm hj), hy], hn⟩
    · exact ⟨layer', by simp [hnew, hlt], by simp [hlayer', hnew, hn]⟩
  · intro n x hx s hs
    rcases of_push_some hx with hx | ⟨_, rfl⟩
    · obtain ⟨y, hy⟩ := hw.sourced n x hx s hs
      exact ⟨y, push_some hy _⟩
    · cases hs

theorem stored_invalidate {net : Network} {l j : LayerId} {layer : Layer} {es : List Ensemble}
    (h : (net.invalidate l).layers[j]? = some layer) (hes : layer.ensembles = some es) :
    j ≠ l ∧ net.layers[j]? = some layer := by
  change (net.layers.modify l _)[j]? = some layer at h
  rw [Array.getElem?_modify] at h
  split at h
  · obtain ⟨x, _, rfl⟩ := Option.map_eq_some_iff.1 h
    cases hes
  · rename_i he
    exact ⟨Ne.symm he, h⟩

/-- A change to one neuron, after which nothing is stored for its layer. -/
structure Changes (net net' : Network) (n : NeuronId) (x : Neuron) : Prop where
  neuron : net.neurons[n]? = some x
  nodes : Arena.Extends net.arena.nodes net'.arena.nodes
  layers : net'.layers = (net.invalidate x.layer).layers
  places : ∀ m : NeuronId, net'.neurons[m]?.map place = net.neurons[m]?.map place
  others : ∀ (m : NeuronId) (y : Neuron), m ≠ n → net.neurons[m]? = some y →
    ∃ z, net'.neurons[m]? = some z ∧ z.sources = y.sources ∧ z.forward = y.forward

theorem Changes.samePlaces {net net' : Network} {n : NeuronId} {x : Neuron}
    (h : net.Changes net' n x) : net.SamePlaces net' := by
  refine ⟨fun l => ?_, h.places⟩
  rw [h.layers]
  change (net.layers.modify x.layer _)[l]?.map _ = _
  rw [Array.getElem?_modify]
  split
  · rw [Option.map_map]
    rfl
  · rfl

theorem Changes.evolves {net net' : Network} {n : NeuronId} {x : Neuron} (hw : net.WellFormed)
    (h : net.Changes net' n x) : net.Evolves net' := by
  refine ⟨h.nodes, fun m y hy => h.samePlaces.neuron hy, ?_⟩
  intro l layer es hl hes
  rw [h.layers] at hl
  obtain ⟨hne, hl⟩ := stored_invalidate hl hes
  refine ⟨hl, fun m hm y hy => h.others m y ?_ hy⟩
  rintro rfl
  obtain ⟨z, hz, hzl⟩ := hw.neuron_of_mem hl hm
  obtain rfl : z = x := by simpa [hz] using h.neuron
  exact hne hzl.symm

theorem modify_some {neurons : Array Neuron} {n m : NeuronId} {f : Neuron → Neuron} {y : Neuron}
    (hy : neurons[m]? = some y) : (neurons.modify n f)[m]? = some (if n = m then f y else y) := by
  rw [Array.getElem?_modify, hy]
  split <;> rfl

theorem of_modify_some {neurons : Array Neuron} {n m : NeuronId} {f : Neuron → Neuron} {y : Neuron}
    (hy : (neurons.modify n f)[m]? = some y) :
    ∃ z, neurons[m]? = some z ∧ y = if n = m then f z else z := by
  rw [Array.getElem?_modify] at hy
  split at hy
  · obtain ⟨z, hz, rfl⟩ := Option.map_eq_some_iff.1 hy
    exact ⟨z, hz, by simp [*]⟩
  · exact ⟨y, hy, by simp [*]⟩

/-- A change to a neuron does not show in what it leaves as it is. -/
theorem map_modify {β : Type} {view : Neuron → β} (neurons : Array Neuron) {f : Neuron → Neuron}
    (hf : ∀ x, view (f x) = view x) (n m : NeuronId) :
    (neurons.modify n f)[m]?.map view = neurons[m]?.map view := by
  rw [Array.getElem?_modify]
  split
  · rw [Option.map_map, Function.comp_def]
    simp only [hf]
  · rfl

theorem changes_connect {net : Network} {sink : NeuronId} {x : Neuron}
    (hx : net.neurons[sink]? = some x) (src : NeuronId) :
    net.Changes ((net.addEdge src sink).invalidate x.layer) sink x := by
  refine ⟨hx, .refl _, rfl, ?_, ?_⟩
  · intro m
    exact (map_modify _ (by intro; rfl) sink m).trans
      (map_modify _ (by intro; rfl) src m)
  · intro m y hm hy
    have hz := modify_some (n := sink) (f := fun n => { n with sources := n.sources ++ [src] })
      (modify_some (n := src) (f := fun n => { n with sinks := n.sinks ++ [sink] }) hy)
    rw [if_neg hm.symm] at hz
    refine ⟨_, hz, ?_⟩
    split <;> exact ⟨rfl, rfl⟩

/-- An edge leads from a neuron that is no output to one that is no input. -/
theorem sinkOf_eq_ok {net : Network} {src sink : NeuronId} {x : Neuron} :
    net.sinkOf src sink = .ok x ↔ (∃ m, net.neurons[src]? = some m ∧ m.isOutput = false) ∧
      net.neurons[sink]? = some x ∧ x.isInput = false := by
  constructor
  · intro h
    obtain ⟨m, hm, h⟩ := bind_eq_ok.1 h
    rw [orDefect_eq_ok, neuron_eq_ok] at hm
    split at h
    · cases h
    rename_i hout
    obtain ⟨y, hy, h⟩ := bind_eq_ok.1 h
    rw [orDefect_eq_ok, neuron_eq_ok] at hy
    split at h
    · cases h
    rename_i hin
    obtain rfl : y = x := Except.ok.inj h
    exact ⟨⟨m, hm, by simpa using hout⟩, hy, by simpa using hin⟩
  · intro h
    obtain ⟨⟨m, hm, hout⟩, hx, hin⟩ := h
    simp only [sinkOf, neuron_eq_ok.2 hm, neuron_eq_ok.2 hx, orDefect, pure_bind, hout, hin]
    rfl

theorem connect_eq_ok {net net' : Network} {src sink : NeuronId}
    (h : net.connect src sink = .ok net') :
    ∃ m x, net.neurons[src]? = some m ∧ m.isOutput = false ∧ net.neurons[sink]? = some x ∧
      x.isInput = false ∧ net' = (net.addEdge src sink).invalidate x.layer := by
  obtain ⟨x, hx, h⟩ := bind_eq_ok.1 h
  obtain ⟨⟨m, hm, hout⟩, hx, hin⟩ := sinkOf_eq_ok.1 hx
  exact ⟨m, x, hm, hout, hx, hin, (Except.ok.inj h).symm⟩

theorem evolves_connect {net net' : Network} {src sink : NeuronId} (hw : net.WellFormed)
    (h : net.connect src sink = .ok net') : net.Evolves net' := by
  obtain ⟨m, x, _, _, hx, _, rfl⟩ := connect_eq_ok h
  exact (changes_connect hx src).evolves hw

theorem WellFormed.connect {net net' : Network} {src sink : NeuronId} (hw : net.WellFormed)
    (h : net.connect src sink = .ok net') : net'.WellFormed := by
  obtain ⟨m, y, hm, _, hy, _, rfl⟩ := connect_eq_ok h
  have hc := changes_connect hy src
  refine hw.of_samePlaces hc.samePlaces hw.ordered (coherent_self _ _ _) ?_
    fun l layer es => hw.grouped_evolve (hc.evolves hw) hw.ordered
  intro n z hz s hs
  obtain ⟨u, hu, rfl⟩ := of_modify_some hz
  obtain ⟨v, hv, rfl⟩ := of_modify_some hu
  have hcases : s ∈ v.sources ∨ s = src := by
    split at hs <;> split at hs <;> simp_all
  rcases hcases with hs | rfl
  · exact hw.sourced n v hv s hs
  · exact ⟨m, hm⟩

/-- A network in which one neuron has another expression. -/
def withForward (net : Network) (n : NeuronId) (x : Neuron) (s : Sketch) : Network :=
  invalidate { net with
    arena := (net.arena.intern s).1
    neurons := net.neurons.modify n fun y => { y with forward := some (net.arena.intern s).2 } }
    x.layer

theorem setForward_cases (net : Network) (n : NeuronId) (s : Sketch) :
    (net.setForward n s).1 = { net with arena := (net.arena.intern s).1 } ∨
      ∃ x, net.neurons[n]? = some x ∧ (net.setForward n s).1 = net.withForward n x s := by
  unfold setForward
  cases hn : net.neuron n with
  | error d => exact .inl rfl
  | ok x => exact .inr ⟨x, neuron_eq_ok.1 hn, rfl⟩

theorem evolves_intern (net : Network) (s : Sketch) :
    net.Evolves { net with arena := (net.arena.intern s).1 } :=
  ⟨.append _ _, fun _ x hx => ⟨x, hx, rfl, rfl, rfl⟩,
    fun _ _ _ hl _ => ⟨hl, fun _ _ x hx => ⟨x, hx, rfl, rfl⟩⟩⟩

theorem changes_withForward {net : Network} {n : NeuronId} {x : Neuron}
    (hx : net.neurons[n]? = some x) (s : Sketch) : net.Changes (net.withForward n x s) n x := by
  refine ⟨hx, .append _ _, rfl, map_modify _ (by intro; rfl) n, ?_⟩
  intro m y hm hy
  refine ⟨_, modify_some hy, ?_⟩
  rw [if_neg hm.symm]
  exact ⟨rfl, rfl⟩

theorem evolves_setForward {net : Network} (hw : net.WellFormed) (n : NeuronId) (s : Sketch) :
    net.Evolves (net.setForward n s).1 := by
  rcases net.setForward_cases n s with h | ⟨x, hx, h⟩
  · rw [h]
    exact net.evolves_intern s
  · rw [h]
    exact (changes_withForward hx s).evolves hw

theorem WellFormed.setForward {net : Network} (hw : net.WellFormed) (n : NeuronId) (s : Sketch) :
    (net.setForward n s).1.WellFormed := by
  have hextends : Arena.Extends net.arena.nodes (net.arena.intern s).1.nodes := .append _ _
  have hordered : Arena.Ordered (net.arena.intern s).1.nodes := hw.ordered.intern s
  rcases net.setForward_cases n s with h | ⟨x, hx, h⟩
  · rw [h]
    refine hw.of_samePlaces ⟨fun _ => rfl, fun _ => rfl⟩ hordered ?_ hw.sourced
      fun l layer es => hw.grouped_evolve (net.evolves_intern s) hordered
    exact hw.coherent.mono hextends (env_extends fun n x hx => ⟨x, hx, rfl⟩)
  · rw [h]
    have hc := changes_withForward hx s
    refine hw.of_samePlaces hc.samePlaces hordered ?_ ?_
      fun l layer es => hw.grouped_evolve (hc.evolves hw) hordered
    · refine hw.coherent.mono hextends (env_extends fun m y hy => ⟨_, modify_some hy, ?_⟩)
      split <;> rfl
    · intro m y hy t ht
      obtain ⟨z, hz, rfl⟩ := of_modify_some hy
      refine hw.sourced m z hz t ?_
      split at ht <;> exact ht

theorem addProperty_eq_ok {net net' : Network} {n : NeuronId} {name : String} {value : Property}
    {i : Nat} (h : net.addProperty n name value = .ok (net', i)) :
    net' = { net with neurons := net.neurons.modify n fun x =>
      { x with properties := x.properties ++ [(name, value)] } } := by
  obtain ⟨x, _, h⟩ := bind_eq_ok.1 h
  simp only [pure, Except.pure, Except.ok.injEq, Prod.mk.injEq] at h
  exact h.1.symm

theorem samePlaces_addProperty {net net' : Network} {n : NeuronId} {name : String}
    {value : Property} {i : Nat} (h : net.addProperty n name value = .ok (net', i)) :
    net.SamePlaces net' := by
  rw [addProperty_eq_ok h]
  exact ⟨fun _ => rfl, map_modify _ (by intro; rfl) n⟩

theorem evolves_addProperty {net net' : Network} {n : NeuronId} {name : String}
    {value : Property} {i : Nat} (h : net.addProperty n name value = .ok (net', i)) :
    net.Evolves net' := by
  have hp := samePlaces_addProperty h
  obtain rfl := addProperty_eq_ok h
  refine ⟨.refl _, fun m y hy => hp.neuron hy, fun l layer es hl _ => ⟨hl, fun m _ y hy => ?_⟩⟩
  refine ⟨_, modify_some hy, ?_⟩
  split <;> exact ⟨rfl, rfl⟩

theorem WellFormed.addProperty {net net' : Network} {n : NeuronId} {name : String}
    {value : Property} {i : Nat} (hw : net.WellFormed)
    (h : net.addProperty n name value = .ok (net', i)) : net'.WellFormed := by
  have hp := samePlaces_addProperty h
  have he := evolves_addProperty h
  obtain rfl := addProperty_eq_ok h
  refine hw.of_samePlaces hp hw.ordered ?_ ?_ fun l layer es => hw.grouped_evolve he hw.ordered
  · refine hw.coherent.mono (.refl _) (env_extends fun m y hy => ⟨_, modify_some hy, ?_⟩)
    split <;> rfl
  · intro m y hy t ht
    obtain ⟨z, hz, rfl⟩ := of_modify_some hy
    refine hw.sourced m z hz t ?_
    split at ht <;> exact ht

end Synapse.Network
