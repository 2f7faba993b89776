import Mathlib.Tactic
import Synapse.Proofs.Propagation
import Synapse.Proofs.Sessions

namespace Synapse

namespace Lowered

variable {net : Network} {k : Kernel}

/-- A run of the kernel passes the input through the lowered layers. -/
theorem runs (h : Lowered net k) (hb : net.Bounded) {S : Type} (I : Interpretation S)
    {input : List S} (hlen : input.length = k.length Kernel.inputVar) :
    Runs (k.execute I input) (net.propagate I net.loweredLayers input) fun V τ =>
      net.loweredLayers ≠ [] → τ.Holds k Kernel.outputVar (.vector V) := by
  obtain ⟨cs, hcs, hcomputes⟩ := h.code
  have hinput : (Kernel.start input).Holds k Kernel.inputVar (.vector input) := by
    refine ⟨hlen.symm, _, rfl, fun i a ha => ⟨{ value := a }, ?_, rfl⟩⟩
    rw [ha, Option.map_some]
  rw [Kernel.execute, hcs]
  refine hcomputes.runs hb I input (Kernel.start input) (fun _ => none) hinput rfl fun v hv => ?_
  have hv : 2 ≤ v := hv
  have h0 : v ≠ Kernel.inputVar := Nat.ne_of_gt (Nat.lt_of_lt_of_le Nat.zero_lt_two hv)
  have h1 : v ≠ Kernel.outputVar := Nat.ne_of_gt (Nat.lt_of_lt_of_le Nat.one_lt_two hv)
  rw [Kernel.start, if_neg h0, if_neg h1]

theorem length_input (h : Lowered net k) (hb : net.Bounded) :
    k.length Kernel.inputVar = net.width 0 := by
  have hwidth : net.width 0 < UInt32.size := by
    unfold Network.width
    split
    · rename_i layer hlayer
      exact hb.width_lt hlayer
    · decide
  exact Kernel.length_vectorOf h.input hwidth

theorem recipes (h : Lowered net k) : ∀ q ∈ net.loweredLayers, ∀ n ∈ q.1.neurons,
    net.HasRecipe n := by
  obtain ⟨cs, _, hcomputes⟩ := h.code
  exact hcomputes.recipes

/-- Values pass through the lowered layers exactly if nothing is read out of range. -/
theorem propagate_isSome (h : Lowered net k) (hw : net.WellFormed) (hb : net.Bounded) {S : Type}
    (I : Interpretation S) {input : List S} (hlen : input.length = net.width 0) :
    (∃ V, net.propagate I net.loweredLayers input = some V) ↔ net.InRange net.loweredLayers := by
  rcases net.loweredLayers_eq with hall | ⟨_, _, hrest⟩
  · exact Network.propagate_isSome hw hb h.checked hall.symm h.recipes I hlen
  · exact Network.propagate_isSome hw hb h.checked hrest.symm h.recipes I hlen

/-- A kernel runs to its end, or stops at an index out of range, where neurons read out of range. -/
theorem execute_cases (h : Lowered net k) (hw : net.WellFormed) (hb : net.Bounded) {S : Type}
    (I : Interpretation S) {input : List S} (hlen : input.length = k.length Kernel.inputVar) :
    (net.InRange net.loweredLayers ∧ ∃ σ, k.execute I input = .ok σ) ∨
      ¬ net.InRange net.loweredLayers ∧ ∃ v i, k.execute I input = .error (.outOfRange v i) := by
  have hrun := h.runs hb I hlen
  rw [h.length_input hb] at hlen
  rw [← h.propagate_isSome hw hb I hlen]
  cases hV : net.propagate I net.loweredLayers input with
  | none =>
    rw [hV] at hrun
    exact .inr ⟨by simp, hrun⟩
  | some V =>
    rw [hV] at hrun
    obtain ⟨σ, hσ, _⟩ := hrun
    exact .inl ⟨⟨V, rfl⟩, σ, hσ⟩

end Lowered

theorem loweredLayers_ne_nil {net : Network} (h : net.layers.size ≠ 0) :
    net.loweredLayers ≠ [] := by
  rcases net.loweredLayers_eq with hall | ⟨_, hsize, hrest⟩
  · rw [hall]
    simpa using h
  · rw [hrest]
    intro hnil
    have := List.drop_eq_nil_iff.1 hnil
    simp only [List.length_zipIdx, Array.length_toList] at this
    omega

/-- In a layered network a kernel ends with the activations of the last layer in its output. -/
theorem kernel_computes_activations {s s' : Session} {k : Kernel} (hs : s.Reachable)
    (hb : s.net.Bounded) (hlayered : s.net.Layered) (hk : Pass.lower s = .ok k s') {S : Type}
    (I : Interpretation S) (input : List S) (hlen : input.length = s.net.width 0) :
    ∃ σ, k.execute I input = .ok σ ∧ ∀ layer, s.net.layers.back? = some layer →
      ∀ (j : Nat) (n : NeuronId), layer.neurons[j]? = some n →
        ∃ a, s.net.activation I input n = some a ∧ σ.at? Kernel.outputVar j = some a := by
  have hw := hs.wellFormed
  have hlowered := hs.lowered hk
  have hrange : s.net.InRange s.net.loweredLayers :=
    hlayered.inRange hw fun q hq => getElem?_of_mem_loweredLayers hq
  obtain ⟨V, hV⟩ := (hlowered.propagate_isSome hw hb I hlen).2 hrange
  have hrun := hlowered.runs hb I (hlen.trans (hlowered.length_input hb).symm)
  rw [hV] at hrun
  obtain ⟨σ, hσ, hout⟩ := hrun
  refine ⟨σ, hσ, fun layer hlayer j n hn => ?_⟩
  have hsize : s.net.layers.size ≠ 0 := by
    intro hzero
    rw [Array.back?_eq_getElem?, Array.getElem?_eq_none (by omega)] at hlayer
    cases hlayer
  have hne := loweredLayers_ne_nil hsize
  have hfeeds : s.net.Feeds I input s.net.layers.size V := by
    rcases s.net.loweredLayers_eq with hall | ⟨⟨first, hfirst, hpass⟩, _, hrest⟩
    · exact Network.propagate_eq hw hlayered hall.symm (i := 0) rfl hV hne
    · exact Network.propagate_eq hw hlayered hrest.symm
        (Network.feeds_of_passThrough hw hfirst hpass I hlen) hV hne
  obtain ⟨m, hm⟩ := Nat.exists_eq_succ_of_ne_zero hsize
  rw [hm] at hfeeds
  have hback : s.net.layers[m]? = some layer := by
    rw [← hlayer, Array.back?_eq_getElem?, hm]
    rfl
  obtain ⟨layer', hlayer', hactivations⟩ := hfeeds
  obtain rfl : layer = layer' := Option.some.inj (hback.symm.trans hlayer')
  obtain ⟨a, ha, hn⟩ := forall₂_getElem? (mapM_eq_some_iff.1 hactivations) hn
  obtain ⟨_, slots, hslots, hfilled⟩ := hout hne
  obtain ⟨w, hw', rfl⟩ := hfilled j a ha
  exact ⟨w.value, hn, by rw [Store.at?, hslots]; simp [hw']⟩

/-- Integers with their own arithmetic; a real stands for its bits. -/
def Interpretation.integers : Interpretation Int where
  int n := n
  bool b := if b then 1 else 0
  real x := x.bits.toNat
  unary op a := op.onInt a
  binary op a b := (op.onInt? a b).getD 0
  activate _ a := a

/-- Two input neurons, two weighted sums over both of them, and the sum of these. -/
def pyramid : Session := .ofRequests [.addLayer, .addNeuron 0 .input, .addNeuron 0 .input,
  .setForward 0 { above := [], last := .input 0 }, .setForward 1 { above := [], last := .input 1 },
  .addLayer, .addNeuron 1 .hidden, .addNeuron 1 .hidden, .connectLayers 0 1 fun _ => some [0, 1],
  .setForward 2 { above := [.literal (.vec [⟨2⟩, ⟨3⟩]), .input 2, .binary .mul 0 1],
                  last := .reduce .sum 2 },
  .setForward 3 { above := [.literal (.vec [⟨5⟩, ⟨7⟩]), .input 3, .binary .mul 0 1],
                  last := .reduce .sum 2 },
  .addLayer, .addNeuron 2 .output, .connectLayers 1 2 fun _ => some [0, 1],
  .setForward 4 { above := [.input 4], last := .reduce .sum 0 }]

theorem pyramid_computes_activations : pyramid.Reachable ∧ pyramid.net.Bounded ∧
    pyramid.net.Layered ∧ ∃ k s' σ, Pass.lower pyramid = .ok k s' ∧
      k.execute .integers [10, 1] = .ok σ ∧ σ.at? Kernel.outputVar 0 = some 80 := by
  have hs : pyramid.Reachable := Session.reachable_ofRequests _
  have hb : pyramid.net.Bounded := by decide +kernel
  have hl : pyramid.net.Layered := by decide +kernel
  obtain ⟨k, hk⟩ : ∃ k, pyramid.kernel? = some k := Option.isSome_iff_exists.1 (by decide +kernel)
  obtain ⟨s', hk⟩ := Session.kernel?_eq_some.1 hk
  obtain ⟨layer, hlayer, hn⟩ : ∃ layer, pyramid.net.layers.back? = some layer ∧
      layer.neurons[0]? = some 4 := ⟨{ neurons := [4] }, by decide +kernel, rfl⟩
  have hactivation : pyramid.net.activation .integers [10, 1] 4 = some 80 := by decide +kernel
  obtain ⟨σ, hσ, hout⟩ := kernel_computes_activations hs hb hl hk .integers [10, 1]
    (by decide +kernel)
  obtain ⟨a, ha, hat⟩ := hout layer hlayer 0 4 hn
  obtain rfl : 80 = a := Option.some.inj (hactivation.symm.trans ha)
  exact ⟨hs, hb, hl, k, s', σ, hk, hσ, hat⟩

/-- A kernel stays within its vectors and tables exactly if its neurons read within the layer
before. -/
theorem kernel_within_bounds_iff {s s' : Session} {k : Kernel} (hs : s.Reachable)
    (hb : s.net.Bounded) (hk : Pass.lower s = .ok k s') {S : Type} (I : Interpretation S)
    (input : List S) (hlen : input.length = k.length Kernel.inputVar) :
    (∀ f, k.execute I input = .error f → f.ofIndex = false) ↔
      s.net.InRange s.net.loweredLayers := by
  have hcases := (hs.lowered hk).execute_cases hs.wellFormed hb I hlen
  rcases hcases with ⟨hrange, σ, hσ⟩ | ⟨hrange, v, i, hv⟩
  · simp [hrange, hσ]
  · simp [hrange, hv, Fault.ofIndex]

/-- A neuron that also reads past the layer before it. -/
def shortcut : Session := (Request.connect 1 4).run pyramid

theorem shortcut_within_bounds : shortcut.Reachable ∧ shortcut.net.Bounded ∧
    ¬ shortcut.net.Layered ∧ ∃ k s', Pass.lower shortcut = .ok k s' ∧
      ∀ f, k.execute .integers [10, 1] = .error f → f.ofIndex = false := by
  have hs : shortcut.Reachable := .step _ (Session.reachable_ofRequests _)
  have hb : shortcut.net.Bounded := by decide +kernel
  have hrange : shortcut.net.InRange shortcut.net.loweredLayers := by decide +kernel
  have hlen : shortcut.kernel?.map (·.length Kernel.inputVar) = some 2 := by decide +kernel
  obtain ⟨k, hk, hlen⟩ := Option.map_eq_some_iff.1 hlen
  obtain ⟨s', hk⟩ := Session.kernel?_eq_some.1 hk
  have hiff := kernel_within_bounds_iff hs hb hk .integers [10, 1] hlen.symm
  exact ⟨hs, hb, by decide +kernel, k, s', hk, hiff.2 hrange⟩

/-- Two input neurons behind a single hidden one. -/
def stray : Session := .ofRequests [.addLayer, .addNeuron 0 .input, .addNeuron 0 .input,
  .setForward 0 { above := [], last := .input 0 }, .setForward 1 { above := [], last := .input 1 },
  .addLayer, .addNeuron 1 .hidden, .connect 0 2, .connect 1 2,
  .setForward 2 { above := [.input 2], last := .reduce .sum 0 },
  .addLayer, .addNeuron 2 .input, .addNeuron 2 .input,
  .setForward 3 { above := [], last := .input 3 }, .setForward 4 { above := [], last := .input 4 }]

/-- An input neuron of a later layer reads the layer before at its own position, which need not be
there. -/
theorem stray_leaves_bounds : stray.Reachable ∧ stray.net.Bounded ∧
    ∃ k s', Pass.lower stray = .ok k s' ∧ k.length Kernel.inputVar = 2 ∧
      k.execute .integers [10, 1] = .error (.outOfRange 2 1) := by
  have hfault : stray.kernel?.map (fun k => (k.length Kernel.inputVar,
      match k.execute .integers [10, 1] with
      | .ok _ => none
      | .error f => some f)) = some (2, some (.outOfRange 2 1)) := by decide +kernel
  obtain ⟨k, hk, hfault⟩ := Option.map_eq_some_iff.1 hfault
  obtain ⟨s', hk⟩ := Session.kernel?_eq_some.1 hk
  obtain ⟨hlen, hfault⟩ := Prod.mk.inj hfault
  refine ⟨Session.reachable_ofRequests _, by decide +kernel, k, s', hk, hlen, ?_⟩
  split at hfault
  · cases hfault
  · rename_i f hf
    rw [hf, Option.some.inj hfault]

/-- A kernel is well typed exactly if each neuron that it computes has a real expression. -/
theorem kernel_wellTyped_iff {s s' : Session} {k : Kernel} (hs : s.Reachable)
    (hk : Pass.lower s = .ok k s') :
    k.run Kernel.check = .ok () ↔ ∀ q ∈ s.net.loweredLayers, ∀ n ∈ q.1.neurons,
      ∃ x root t, s.net.neurons[n]? = some x ∧ x.forward = some root ∧
        Pass.infer root s = .ok .real t := by
  have hlowered := hs.lowered hk
  obtain ⟨cs, hcs, hcomputes⟩ := hlowered.code
  rw [Kernel.run_check_eq_ok hlowered.untyped hcs, hcomputes.typed]
  refine forall₂_congr fun q _ => forall₂_congr fun n _ => ?_
  constructor
  · rintro ⟨root, hroot, hreal⟩
    obtain ⟨x, hx, hforward⟩ := Option.bind_eq_some_iff.1 hroot
    obtain ⟨t, ht⟩ := (Session.infer_eq_ok hs.wellFormed).2 hreal
    exact ⟨x, root, t, hx, hforward, ht⟩
  · rintro ⟨x, root, t, hx, hforward, ht⟩
    exact ⟨root, by simp [Network.forward?, hx, hforward],
      (Session.infer_eq_ok hs.wellFormed).1 ⟨t, ht⟩⟩

/-- A real neuron beside one that is an integer. -/
def mixed : Session := .ofRequests [.addLayer, .addNeuron 0 .hidden, .addNeuron 0 .hidden,
  .setForward 0 { above := [], last := .literal (.real ⟨1⟩) },
  .setForward 1 { above := [], last := .literal (.int 1) }]

theorem mixed_not_wellTyped : mixed.Reachable ∧ ∃ k s', Pass.lower mixed = .ok k s' ∧
    k.run Kernel.check ≠ .ok () := by
  have hs : mixed.Reachable := Session.reachable_ofRequests _
  obtain ⟨k, hk⟩ : ∃ k, mixed.kernel? = some k := Option.isSome_iff_exists.1 (by decide +kernel)
  obtain ⟨s', hk⟩ := Session.kernel?_eq_some.1 hk
  refine ⟨hs, k, s', hk, fun hcheck => ?_⟩
  have hmem : (({ neurons := [0, 1] }, 0) : Layer × LayerId) ∈ mixed.net.loweredLayers := by
    decide +kernel
  obtain ⟨x, root, t, hx, hroot, ht⟩ := (kernel_wellTyped_iff hs hk).1 hcheck _ hmem 1 (by simp)
  have hforward : mixed.net.forward? 1 = some 1 := by decide +kernel
  obtain rfl : root = 1 := by simpa [Network.forward?, hx, hroot] using hforward
  have hreal := (Session.infer_eq_ok hs.wellFormed).1 ⟨t, ht⟩
  have hint : (typeOf mixed.net.arena.nodes mixed.net.env 1).toOption = some .int := by
    decide +kernel
  rw [hreal] at hint
  cases hint

/-- A kernel defines each variable before it reads it. -/
theorem kernel_defines_before_use {s s' : Session} {k : Kernel} (hs : s.Reachable)
    (hk : Pass.lower s = .ok k s') : k.checkDefinitions = .ok () := by
  obtain ⟨cs, hcs, hcomputes⟩ := (hs.lowered hk).code
  have hscoped := hcomputes.inScope [Kernel.inputVar] List.mem_cons_self
  exact Kernel.checkDefinitions_eq_ok hcs hscoped

theorem pyramid_defines_before_use : pyramid.Reachable ∧ ∃ k s', Pass.lower pyramid = .ok k s' ∧
    k.checkDefinitions = .ok () := by
  have hs : pyramid.Reachable := Session.reachable_ofRequests _
  obtain ⟨k, hk⟩ : ∃ k, pyramid.kernel? = some k := Option.isSome_iff_exists.1 (by decide +kernel)
  obtain ⟨s', hk⟩ := Session.kernel?_eq_some.1 hk
  exact ⟨hs, k, s', hk, kernel_defines_before_use hs hk⟩

end Synapse
