import Mathlib.Tactic
import Synapse.Sample
import Synapse.Proofs.Assembly
import Synapse.Proofs.Interning

namespace Synapse.Sample

theorem ordered_input (n : NeuronId) : Term.ordered 0 ([] ++ [.input n]) = true := rfl

/-- The expression that passes an input on. -/
def passOn (n : NeuronId) : Sketch := ⟨[], .input n, ordered_input n⟩

/-- The expression of a neuron in a network whose layers have `w` neurons each. -/
def formula (w : Nat) (n : NeuronId) : Sketch :=
  if n / w = 0 then passOn n
  else weightedSum n ((List.range w).map (weight (n / w) (n % w))) (bias (n / w) (n % w) w)

/-- The neurons that feed each neuron of a layer: all of the layer before. -/
def sources (w : Nat) (l : LayerId) : List NeuronId :=
  if l = 0 then [] else List.range' ((l - 1) * w) w

/-- A sample network under construction, with `kinds` as the kinds of its layers. Its neurons are
numbered layer by layer: those before `made` exist, those before `wired` have their sources, and
those before `filled` have their expressions. -/
structure Stage (w : Nat) (kinds : LayerId → NeuronKind) (layers made wired filled : Nat)
    (net : Network) : Prop where
  count : net.layers.size = layers
  size : net.neurons.size = made
  layer : ∀ l < layers, net.layers[l]?.map Layer.neurons =
    some (List.range' (l * w) (min w (made - l * w)))
  neuron : ∀ n < made, ∃ x, net.neurons[n]? = some x ∧ x.kind = kinds (n / w) ∧
    x.sources = (if n < wired then sources w (n / w) else []) ∧
    (n < filled → ∃ base, x.forward = some ((formula w n).root base) ∧
      (formula w n).Stands net.arena.nodes base)

/-- A network with the first layers of a sample network, all of them complete. -/
abbrev Full (w : Nat) (kinds : LayerId → NeuronKind) (layers : Nat) (net : Network) : Prop :=
  Stage w kinds layers (layers * w) (layers * w) (layers * w) net

namespace Stage

variable {w : Nat} {kinds : LayerId → NeuronKind} {layers made wired filled : Nat} {net : Network}

theorem empty : Stage w kinds 0 0 0 0 {} := by
  constructor <;> simp

theorem addLayer (h : Stage w kinds layers made wired filled net) (hmade : made ≤ layers * w) :
    Stage w kinds (layers + 1) made wired filled net.addLayer.1 := by
  refine ⟨by simp [Network.addLayer, h.count], h.size, fun l hl => ?_, h.neuron⟩
  by_cases hlast : l = layers
  · have hnone : made - layers * w = 0 := by omega
    have hnew : net.addLayer.1.layers[l]? = some {} := by
      rw [hlast, ← h.count]
      exact Array.getElem?_push_size
    rw [hnew, hlast, hnone]
    simp
  · have hold := h.layer l (by omega)
    obtain ⟨layer, hlayer, hneurons⟩ := Option.map_eq_some_iff.1 hold
    exact Option.map_eq_some_iff.2 ⟨layer, push_some hlayer _, hneurons⟩

/-- One neuron more does not show in any layer but its own. -/
theorem room_of_ne {l j k : Nat} (hk : k < w) (hj : l ≠ j) :
    min w (l * w + k + 1 - j * w) = min w (l * w + k - j * w) := by
  rcases Nat.lt_or_gt_of_ne hj with hlt | hlt
  · have hle : (l + 1) * w ≤ j * w := Nat.mul_le_mul_right w hlt
    rw [Nat.add_mul] at hle
    omega
  · have hle : (j + 1) * w ≤ l * w := Nat.mul_le_mul_right w hlt
    rw [Nat.add_mul] at hle
    omega

/-- The next neuron goes to the end of the layer that has room. -/
theorem addNeuron {l k : Nat} (h : Stage w kinds layers (l * w + k) wired filled net)
    (hl : l < layers) (hk : k < w) (hwired : wired ≤ l * w + k) (hfilled : filled ≤ l * w + k) :
    ∃ q, net.addNeuron l (kinds l) = .ok q ∧ q.2 = l * w + k ∧
      Stage w kinds layers (l * w + k + 1) wired filled q.1 := by
  have hdiv : (l * w + k) / w = l := (Nat.div_eq_iff (by omega)).2 (by omega)
  obtain ⟨layer, hlayer, hneurons⟩ := Option.map_eq_some_iff.1 (h.layer l hl)
  have hhere : min w (l * w + k - l * w) = k := by omega
  have hthere : min w (l * w + k + 1 - l * w) = k + 1 := by omega
  rw [hhere] at hneurons
  refine ⟨_, bind_eq_ok.2 ⟨layer, Network.layer_eq_ok.2 hlayer, rfl⟩, h.size, ?_, ?_, ?_, ?_⟩
  · simp [h.count]
  · simp [h.size]
  · intro j hj
    by_cases hjl : l = j
    · subst hjl
      simp [h.count, h.size, hl, hneurons, hthere, List.range'_1_concat]
    · simp only [Array.getElem?_setIfInBounds_ne hjl, h.layer j hj, room_of_ne hk hjl]
  · intro n hn
    by_cases hlast : n = l * w + k
    · have hnew : ¬ n < wired ∧ ¬ n < filled := by omega
      refine ⟨_, by rw [hlast, ← h.size]; exact Array.getElem?_push_size, ?_, ?_,
        fun hlt => absurd hlt hnew.2⟩
      · rw [hlast, hdiv]
      · rw [if_neg hnew.1]
    · obtain ⟨x, hx, hrest⟩ := h.neuron n (by omega)
      exact ⟨x, push_some hx _, hrest⟩

theorem addProperty (h : Stage w kinds layers made wired filled net) {n : Nat} (hn : n < made)
    (name : String) (value : Property) : ∃ q, net.addProperty n name value = .ok q ∧
      Stage w kinds layers made wired filled q.1 := by
  obtain ⟨x, hx, _⟩ := h.neuron n hn
  refine ⟨_, bind_eq_ok.2 ⟨x, Network.neuron_eq_ok.2 hx, rfl⟩, h.count, ?_, h.layer, ?_⟩
  · simp [h.size]
  · intro m hm
    obtain ⟨y, hy, hrest⟩ := h.neuron m hm
    refine ⟨_, Network.modify_some hy, ?_⟩
    split <;> exact hrest

theorem setForward {n : Nat} (h : Stage w kinds layers made wired n net) (hn : n < made) :
    ∃ x, net.neurons[n]? = some x ∧
      Stage w kinds layers made wired (n + 1) (net.withForward n x (formula w n)) := by
  obtain ⟨x, hx, _⟩ := h.neuron n hn
  have hplaces := (Network.changes_withForward hx (formula w n)).samePlaces
  have hnodes : Arena.Extends net.arena.nodes (net.arena.intern (formula w n)).1.nodes :=
    .append _ _
  refine ⟨x, hx, ?_, ?_, ?_, ?_⟩
  · simp [Network.withForward, Network.invalidate, h.count]
  · simp [Network.withForward, Network.invalidate, h.size]
  · intro l hl
    rw [hplaces.layers, h.layer l hl]
  · intro m hm
    obtain ⟨y, hy, hkind, hsources, hforward⟩ := h.neuron m hm
    refine ⟨_, Network.modify_some hy, ?_⟩
    by_cases hmn : n = m
    · subst hmn
      rw [if_pos rfl]
      exact ⟨hkind, hsources, fun _ => ⟨_, rfl, Sketch.stands_intern _ _⟩⟩
    · rw [if_neg hmn]
      refine ⟨hkind, hsources, fun hlt => ?_⟩
      obtain ⟨base, hroot, hstands⟩ := hforward (by omega)
      exact ⟨base, hroot, hstands.mono hnodes⟩

/-- The neurons of the first layer need no wires. -/
theorem wires_inputs (h : Stage w kinds layers w 0 filled net) :
    Stage w kinds layers w w filled net := by
  refine ⟨h.count, h.size, h.layer, fun n hn => ?_⟩
  obtain ⟨x, hx, hkind, hsources, hforward⟩ := h.neuron n hn
  have hfirst : n / w = 0 := Nat.div_eq_of_lt hn
  refine ⟨x, hx, hkind, ?_, hforward⟩
  simp [hsources, sources, hfirst]

/-- The neurons of a complete layer. -/
theorem mem_layer {l n : Nat} : n ∈ List.range' (l * w) w ↔ l * w ≤ n ∧ n < (l + 1) * w := by
  rw [List.mem_range'_1, Nat.add_mul, Nat.one_mul]

theorem div_of_mem {l n : Nat} (h : n ∈ List.range' (l * w) w) : n / w = l := by
  obtain ⟨hle, hlt⟩ := mem_layer.1 h
  have hpos : 0 < w := by
    by_contra hw
    simp_all
  rw [Nat.add_mul] at hlt
  exact (Nat.div_eq_iff hpos).2 (by omega)

/-- A layer is complete once its last neuron exists. -/
theorem complete_layer (h : Stage w kinds layers made wired filled net) {l : Nat} (hl : l < layers)
    (hmade : (l + 1) * w ≤ made) :
    net.layers[l]?.map Layer.neurons = some (List.range' (l * w) w) := by
  have hall : min w (made - l * w) = w := by
    rw [Nat.add_mul] at hmade
    omega
  rw [h.layer l hl, hall]

theorem permits {l : Nat} (h : Stage w kinds layers made wired filled net)
    (hmade : (l + 2) * w ≤ made) (hout : kinds l ≠ .output) (hin : kinds (l + 1) ≠ .input) :
    ∀ m ∈ List.range' (l * w) w, ∀ n ∈ List.range' ((l + 1) * w) w, net.Permits m n := by
  intro m hm n hn
  have hle : (l + 1) * w ≤ made := (Nat.mul_le_mul_right w (Nat.le_succ _)).trans hmade
  obtain ⟨x, hx, hkind, _⟩ := h.neuron m (Nat.lt_of_lt_of_le (mem_layer.1 hm).2 hle)
  obtain ⟨y, hy, hkind', _⟩ := h.neuron n (Nat.lt_of_lt_of_le (mem_layer.1 hn).2 hmade)
  rw [div_of_mem hm] at hkind
  rw [div_of_mem hn] at hkind'
  have hx' : x.isOutput = false := by simpa [Neuron.isOutput, hkind] using hout
  have hy' : y.isInput = false := by simpa [Neuron.isInput, hkind'] using hin
  exact ⟨y, Network.sinkOf_eq_ok.2 ⟨⟨x, hx, hx'⟩, hy, hy'⟩⟩

/-- All edges from a layer to the next feed the neurons of that one, and no others. -/
theorem wires {l : Nat} {net' : Network}
    (h : Stage w kinds (l + 2) ((l + 2) * w) ((l + 1) * w) filled net)
    (hwires : net.Wires net' (Network.product (List.range' (l * w) w)
      (List.range' ((l + 1) * w) w))) :
    Stage w kinds (l + 2) ((l + 2) * w) ((l + 2) * w) filled net' := by
  refine ⟨?_, ?_, ?_, fun n hn => ?_⟩
  · rw [size_eq_of_getElem? hwires.places.layers, h.count]
  · rw [size_eq_of_getElem? hwires.places.neurons, h.size]
  · intro j hj
    rw [hwires.places.layers, h.layer j hj]
  obtain ⟨x, hx, hkind, hsources, hforward⟩ := h.neuron n hn
  obtain ⟨y, hy, hkind', hforward', hsources'⟩ := hwires.neurons n x hx
  refine ⟨y, hy, hkind'.trans hkind, ?_, ?_⟩
  · rw [hsources', hsources, Network.newSources_product List.nodup_range', if_pos hn]
    by_cases hold : n < (l + 1) * w
    · have hnot : n ∉ List.range' ((l + 1) * w) w := by
        rw [mem_layer]
        omega
      rw [if_pos hold, if_neg hnot, List.append_nil]
    · have hmem : n ∈ List.range' ((l + 1) * w) w := mem_layer.2 ⟨by omega, hn⟩
      rw [if_neg hold, if_pos hmem, div_of_mem hmem]
      simp [sources]
  · rw [hforward', hwires.nodes]
    exact hforward

/-- A layer that is complete can be connected to the layer before. -/
theorem connect {l : Nat} (h : Stage w kinds (l + 2) ((l + 2) * w) ((l + 1) * w) filled net)
    (hout : kinds l ≠ .output) (hin : kinds (l + 1) ≠ .input) :
    ∃ edges, net.edgesBetween l (l + 1) (dense w) = .ok edges ∧
      (∀ e ∈ edges, net.Permits e.1 e.2) ∧ ∀ net', net.Wires net' edges →
        Stage w kinds (l + 2) ((l + 2) * w) ((l + 2) * w) filled net' := by
  have hpermits := h.permits (Nat.le_refl _) hout hin
  have hwanted : ∀ p < (List.range' ((l + 1) * w) w).length,
      dense w p = some (List.range (List.range' (l * w) w).length) := by
    intro p hp
    rw [List.length_range'] at hp ⊢
    exact if_pos hp
  have hedges := Network.edgesBetween_full
    (h.complete_layer (by omega) (Nat.mul_le_mul_right w (Nat.le_succ _)))
    (h.complete_layer (by omega) (Nat.le_refl _)) hwanted hpermits
  refine ⟨_, hedges, fun e he => ?_, fun net' hwires => h.wires hwires⟩
  simp only [Network.product, List.mem_flatMap, List.mem_map] at he
  obtain ⟨n, hn, m, hm, rfl⟩ := he
  exact hpermits m hm n hn

end Stage

open Pass (Builds)

variable {w : Nat} {kinds : LayerId → NeuronKind}

/-- One more neuron of the first layer. -/
theorem builds_input {i : Nat} (hi : i < w) (hkind : kinds 0 = .input) :
    Builds (Stage w kinds 1 i 0 i) (Pass.addNeuron 0 .input >>= fun n =>
        Pass.setForward n (passOn n) >>= fun _ => Pure.pure ())
      fun _ => Stage w kinds 1 (i + 1) 0 (i + 1) := by
  have hadd : Builds (Stage w kinds 1 i 0 i) (Pass.addNeuron 0 .input) fun n net =>
      n = i ∧ Stage w kinds 1 (i + 1) 0 i net := by
    refine Builds.addNeuron fun net h => ?_
    have h : Stage w kinds 1 (0 * w + i) 0 i net := by simpa using h
    obtain ⟨q, hq, hid, hstage⟩ := h.addNeuron Nat.one_pos hi (by omega) (by omega)
    rw [hkind] at hq
    rw [Nat.zero_mul, Nat.zero_add] at hid hstage
    exact ⟨q, hq, hid, hstage⟩
  have hset : Builds (Stage w kinds 1 (i + 1) 0 i) (Pass.setForward i (formula w i)) fun _ =>
      Stage w kinds 1 (i + 1) 0 (i + 1) :=
    Builds.setForward fun net h => h.setForward (Nat.lt_succ_self i)
  have hformula : formula w i = passOn i := if_pos (Nat.div_eq_of_lt hi)
  refine hadd.bind fun n => Builds.assuming fun hn => ?_
  rw [hn, ← hformula]
  exact hset.bind fun _ => Builds.pure fun _ h => h

theorem builds_addInputs (hkind : kinds 0 = .input) :
    Builds (Stage w kinds 0 0 0 0) (addInputs w) fun l net => l = 0 ∧ Full w kinds 1 net := by
  have hlayer : Builds (Stage w kinds 0 0 0 0) Pass.addLayer fun l net =>
      l = 0 ∧ Stage w kinds 1 0 0 0 net :=
    Builds.addLayer fun net h => ⟨h.count, h.addLayer (Nat.zero_le _)⟩
  refine hlayer.bind fun l => Builds.assuming fun hl => ?_
  subst hl
  refine (Builds.forM (fun i => Stage w kinds 1 i 0 i) fun i x hx =>
    builds_input (of_getElem?_range hx).1 hkind).bind fun _ => ?_
  rw [List.length_range]
  refine Builds.pure fun net h => ⟨rfl, ?_⟩
  rw [Full, Nat.one_mul]
  exact h.wires_inputs

/-- One more neuron gets its properties and its expression. -/
theorem builds_fillNeuron {layers made wired n : Nat} (hn : n < made) (hlayer : n / w ≠ 0) :
    Builds (Stage w kinds layers made wired n) (fillNeuron (n / w) w (n % w) n)
      fun _ => Stage w kinds layers made wired (n + 1) := by
  have hproperty : ∀ name value, Builds (Stage w kinds layers made wired n)
      (Pass.addProperty n name value) fun _ => Stage w kinds layers made wired n :=
    fun name value => Builds.addProperty fun net h => h.addProperty hn name value
  have hset : Builds (Stage w kinds layers made wired n) (Pass.setForward n (formula w n))
      fun _ => Stage w kinds layers made wired (n + 1) :=
    Builds.setForward fun net h => h.setForward hn
  have hformula : formula w n = weightedSum n ((List.range w).map (weight (n / w) (n % w)))
      (bias (n / w) (n % w) w) := if_neg hlayer
  rw [hformula] at hset
  refine (hproperty _ _).bind fun _ => (hproperty _ _).bind fun _ => ?_
  exact hset.bind fun _ => Builds.pure fun _ h => h

/-- One more layer, all of which reads all of the layer before. -/
theorem builds_addDense {l : Nat} (hout : kinds l ≠ .output) (hin : kinds (l + 1) ≠ .input) :
    Builds (Full w kinds (l + 1)) (addDense (kinds (l + 1)) w l) fun j net =>
      j = l + 1 ∧ Full w kinds (l + 2) net := by
  let start := (l + 1) * w
  have hend : (l + 2) * w = start + w := by
    simp only [start, Nat.add_mul]
    omega
  have hlayer : Builds (Full w kinds (l + 1)) Pass.addLayer fun j net =>
      j = l + 1 ∧ Stage w kinds (l + 2) start start start net :=
    Builds.addLayer fun net h => ⟨h.count, h.addLayer (Nat.le_refl _)⟩
  refine hlayer.bind fun j => Builds.assuming fun hj => ?_
  subst hj
  have hroom : ∀ (i x : Nat), (List.range w)[i]? = some x →
      Builds (Stage w kinds (l + 2) (start + i) start start)
        (Pass.addNeuron (l + 1) (kinds (l + 1)))
        fun n net => n = start + i ∧ Stage w kinds (l + 2) (start + i + 1) start start net := by
    intro i x hx
    obtain ⟨hi, _⟩ := of_getElem?_range hx
    exact Builds.addNeuron fun net h => h.addNeuron (by omega) hi (by omega) (by omega)
  refine (Builds.mapM (fun i => Stage w kinds (l + 2) (start + i) start start) (start + ·)
    hroom).bind fun ns => Builds.assuming fun hns => ?_
  rw [List.length_range] at hns ⊢
  have hconnect : Builds (Stage w kinds (l + 2) (start + w) start start)
      (Pass.connectLayers l (l + 1) (dense w))
      fun _ => Stage w kinds (l + 2) (start + w) (start + w) start := by
    rw [← hend]
    exact Builds.connectLayers fun net h => h.connect hout hin
  refine hconnect.bind fun _ => ?_
  have hfill : ∀ (i : Nat) (q : NeuronId × Nat), ns.zipIdx[i]? = some q →
      Builds (Stage w kinds (l + 2) (start + w) (start + w) (start + i))
        (fillNeuron (l + 1) w q.2 q.1)
        fun _ => Stage w kinds (l + 2) (start + w) (start + w) (start + i + 1) := by
    intro i q hq
    have hq : ∃ m, ns[i]? = some m ∧ (m, i) = q := by simpa using hq
    obtain ⟨m, hm, rfl⟩ := hq
    rw [hns, List.getElem?_map] at hm
    obtain ⟨j, hj, rfl⟩ := Option.map_eq_some_iff.1 hm
    obtain ⟨hi, rfl⟩ := of_getElem?_range hj
    have hdiv : (start + i) / w = l + 1 :=
      (Nat.div_eq_iff (by omega)).2 (by simp only [start]; omega)
    have hmod : (start + i) % w = i := by simp [start, Nat.mod_eq_of_lt hi]
    have hround : Builds (Stage w kinds (l + 2) (start + w) (start + w) (start + i))
        (fillNeuron ((start + i) / w) w ((start + i) % w) (start + i))
        fun _ => Stage w kinds (l + 2) (start + w) (start + w) (start + i + 1) :=
      builds_fillNeuron (by omega) (by omega)
    rwa [hdiv, hmod] at hround
  refine (Builds.forM (fun i => Stage w kinds (l + 2) (start + w) (start + w) (start + i))
    hfill).bind fun _ => Builds.pure fun net h => ⟨rfl, ?_⟩
  rw [Full, hend]
  simpa [hns] using h

/-- The kinds of the layers of a perceptron. -/
def kindOf (hidden : Nat) (l : LayerId) : NeuronKind :=
  if l = 0 then .input else if l ≤ hidden then .hidden else .output

theorem kindOf_ne_output {hidden l : Nat} (h : l ≤ hidden) : kindOf hidden l ≠ .output := by
  simp only [kindOf, h, if_true]
  split <;> simp

theorem kindOf_ne_input (hidden l : Nat) : kindOf hidden (l + 1) ≠ .input := by
  simp only [kindOf, Nat.succ_ne_zero, if_false]
  split <;> simp

/-- A perceptron can be built, and all of its layers are complete. -/
theorem builds_perceptron (w hidden : Nat) : Builds (· = {}) (perceptron w hidden)
    fun _ => Full w (kindOf hidden) (hidden + 2) := by
  have hinputs : Builds (· = {}) (addInputs w) fun l net =>
      l = 0 ∧ Full w (kindOf hidden) 1 net := by
    intro s hs hempty
    exact builds_addInputs rfl s hs (hempty ▸ Stage.empty)
  have hround : ∀ (i x : Nat) (l : LayerId), (List.range hidden)[i]? = some x →
      Builds (fun net => l = i ∧ Full w (kindOf hidden) (i + 1) net) (addDense .hidden w l)
        fun j net => j = i + 1 ∧ Full w (kindOf hidden) (i + 2) net := by
    intro i x l hx
    obtain ⟨hi, _⟩ := of_getElem?_range hx
    have hkind : kindOf hidden (i + 1) = .hidden := if_pos hi
    refine Builds.assuming fun hl => ?_
    rw [hl, ← hkind]
    exact builds_addDense (kindOf_ne_output (Nat.le_of_lt hi)) (kindOf_ne_input hidden i)
  refine hinputs.bind fun l => (Builds.foldlM (fun i l net =>
    l = i ∧ Full w (kindOf hidden) (i + 1) net) hround l).bind fun last => ?_
  refine Builds.assuming fun hlast => ?_
  rw [List.length_range] at hlast ⊢
  have hkind : kindOf hidden (hidden + 1) = .output := if_neg (Nat.not_succ_le_self hidden)
  rw [hlast, ← hkind]
  refine (builds_addDense (kindOf_ne_output (Nat.le_refl hidden))
    (kindOf_ne_input hidden hidden)).bind fun _ => Builds.pure fun _ h => h.2

end Synapse.Sample
