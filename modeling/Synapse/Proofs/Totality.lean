import Mathlib.Tactic
import Synapse.Proofs.Kernels
import Synapse.Proofs.Outcomes

namespace Synapse

/-- The ensembles of a layer that can be grouped, stored or not. -/
theorem Pass.Yields.ensembles {net : Network} (hr : net.Ready) {l : LayerId} {layer : Layer}
    (hl : net.layers[l]? = some layer) (h : Yields net (Pass.collect l) fun _ => True) :
    Yields net (Pass.ensembles l) fun es => net.Tiles l 0 es layer.neurons := by
  have hsucceeds : Yields net (Pass.ensembles l) fun _ => True := by
    apply (Returns.layer hl).bind
    split
    · exact Answers.pure ⟨_, rfl, trivial⟩
    · exact h
  apply (hsucceeds.and hr.wellFormed (Answers.ensembles hr.wellFormed l)).imp
  rintro r ⟨⟨es, rfl, _⟩, hgives⟩
  obtain ⟨layer', hl', htiles⟩ := hgives es rfl
  obtain rfl : layer = layer' := Option.some.inj (hl.symm.trans hl')
  exact ⟨es, rfl, htiles⟩

namespace Network

/-- The layer and the position of the first neuron without an expression in some layers. -/
def firstGap? (net : Network) (layers : List (Layer × LayerId)) : Option (LayerId × Nat) :=
  layers.findSome? fun (layer, l) =>
    (layer.neurons.findIdx? fun n => net.forward? n = none).map (l, ·)

/-- Neurons stand where they say. -/
theorem findSome?_gap? {net : Network} {l : LayerId} (start : Nat) {ns : List NeuronId}
    (hplaced : ∀ (p : Nat) (n : NeuronId), ns[p]? = some n →
      ∃ x, net.neurons[n]? = some x ∧ x.layer = l ∧ x.position = start + p) :
    ns.findSome? net.gap? =
      (ns.findIdx? fun n => net.forward? n = none).map fun p => (l, start + p) := by
  induction ns generalizing start with
  | nil => rfl
  | cons n ns ih =>
    obtain ⟨x, hx, hl, hp⟩ := hplaced 0 n rfl
    have hrest := ih (start + 1) fun p m hm => by
      obtain ⟨y, hy, hyl, hyp⟩ := hplaced (p + 1) m hm
      exact ⟨y, hy, hyl, by omega⟩
    cases hroot : x.forward with
    | none => simp [gap?, forward?, List.findIdx?_cons, hx, hroot, hl, hp]
    | some root =>
      have hgap : net.gap? n = none := by simp [gap?, hx, hroot]
      have hforward : net.forward? n ≠ none := by simp [forward?, hx, hroot]
      have hshift : ∀ p, start + 1 + p = start + (p + 1) := by omega
      simp [List.findIdx?_cons, hgap, hforward, hrest, Function.comp_def, hshift]

end Network

/-- A pass returns something, or else stops at a neuron without an expression. -/
def StopsAt {α : Type} (gap : Option (LayerId × Nat)) (r : Except Failure α) : Prop :=
  match gap with
  | none => ∃ a, r = .ok a
  | some p => r = .error (.error (.graph (.missingForward p.1 p.2)))

namespace Pass.Answers

variable {net : Network} {α β : Type}

theorem stopsAt_bind {x : Pass α} {f : α → Pass β} {gap gap' : Option (LayerId × Nat)}
    (hx : Answers net x (StopsAt gap)) (hf : ∀ a, Answers net (f a) (StopsAt gap')) :
    Answers net (x >>= f) (StopsAt (gap.or gap')) := by
  cases gap with
  | none =>
    apply hx.bind fun a _ => hf a
    rintro e ⟨a, he⟩
    cases he
  | some p => exact bind_error hx

theorem stopsAt_pure (a : α) : Answers net (Pure.pure a) (StopsAt none) := pure ⟨a, rfl⟩

theorem stopsAt_ensemble (hr : net.Ready) {e : Ensemble}
    (hcong : ∀ n ∈ e.others, net.Congruent n e.representative) {x : Neuron}
    (hx : net.neurons[e.representative]? = some x) (input output : VarId) (b : Build) :
    Answers net (Pass.lowerEnsemble e input output b) (StopsAt (e.neurons.findSome? net.gap?)) := by
  -- the others have expressions, so that only the representative can lack one
  have hothers : e.others.findSome? net.gap? = none := by
    apply List.findSome?_eq_none_iff.2
    intro n hn
    obtain ⟨_, hforward, _⟩ := (hcong n hn).literal_types hr
    exact Network.gap?_eq_none hforward
  have hgap : e.neurons.findSome? net.gap? = net.gap? e.representative := by
    rw [Ensemble.neurons, List.findSome?_cons, hothers]
    cases net.gap? e.representative <;> rfl
  rw [hgap]
  apply (loweringEnsemble hr hcong hx input output b).imp
  rintro r rfl
  unfold Network.loweringEnsemble
  cases net.gap? e.representative with
  | none => exact ⟨_, rfl⟩
  | some p => rfl

/-- The ensembles of a layer become code up to the first member without an expression. -/
theorem stopsAt_ensembles (hr : net.Ready) {l : LayerId}
    {start : Nat} {es : List Ensemble} {ns : List NeuronId} (ht : net.Tiles l start es ns)
    (hns : ∀ n ∈ ns, ∃ x, net.neurons[n]? = some x) (input output : VarId) (b : Build) :
    Answers net (Pass.lowerEnsembles input output es b) (StopsAt (ns.findSome? net.gap?)) := by
  induction ht generalizing b with
  | nil => exact stopsAt_pure _
  | @cons e es ns _ hcong _ ih =>
    obtain ⟨x, hx⟩ := hns e.representative (by simp [Ensemble.neurons])
    rw [List.findSome?_append]
    apply stopsAt_bind (stopsAt_ensemble hr hcong hx input output b)
    rintro ⟨b, s⟩
    rw [← Option.or_none (o := ns.findSome? net.gap?)]
    apply stopsAt_bind (ih (fun n hn => hns n (List.mem_append_right _ hn)) b)
    rintro ⟨b, below⟩
    exact stopsAt_pure _

/-- Layers that can be grouped become code up to the first neuron without an expression. -/
theorem stopsAt_layers (hr : net.Ready)
    {layers : List (Layer × LayerId)} (hlayers : ∀ q ∈ layers, net.layers[q.2]? = some q.1)
    (hgroups : ∀ q ∈ layers, Yields net (Pass.collect q.2) fun _ => True) (last : LayerId)
    (input : VarId) (b : Build) :
    Answers net (Pass.lowerLayers last input layers b) (StopsAt (net.firstGap? layers)) := by
  induction layers generalizing input b with
  | nil => exact stopsAt_pure _
  | cons q rest ih =>
    obtain ⟨layer, l⟩ := q
    have hl : net.layers[l]? = some layer := hlayers _ List.mem_cons_self
    have hplaced : ∀ (p : Nat) (n : NeuronId), layer.neurons[p]? = some n →
        ∃ x, net.neurons[n]? = some x ∧ x.layer = l ∧ x.position = 0 + p := by
      intro p n hn
      rw [Nat.zero_add]
      exact hr.wellFormed.placed l layer p n hl hn
    have hns : ∀ n ∈ layer.neurons, ∃ x, net.neurons[n]? = some x := by
      intro n hn
      obtain ⟨x, hx, _⟩ := hr.wellFormed.neuron_of_mem hl hn
      exact ⟨x, hx⟩
    have hgap : net.firstGap? ((layer, l) :: rest) =
        (layer.neurons.findSome? net.gap?).or (net.firstGap? rest) := by
      rw [Network.findSome?_gap? 0 hplaced, Network.firstGap?, List.findSome?_cons]
      simp only [Nat.zero_add]
      cases layer.neurons.findIdx? fun n => net.forward? n = none <;> rfl
    have hes := Yields.ensembles hr hl (hgroups _ List.mem_cons_self)
    rw [hgap]
    apply hes.bind
    intro es htiles
    apply stopsAt_bind (stopsAt_ensembles hr htiles hns input _ _)
    rintro ⟨b, here⟩
    rw [← Option.or_none (o := net.firstGap? rest)]
    apply stopsAt_bind (ih (fun q hq => hlayers q (List.mem_cons_of_mem _ hq))
      (fun q hq => hgroups q (List.mem_cons_of_mem _ hq)) _ b)
    rintro ⟨b, below⟩
    exact stopsAt_pure _

theorem stopsAt_lower (hr : net.Ready)
    (hcheck : Returns net Pass.check ())
    (hgroups : ∀ q ∈ net.loweredLayers, Yields net (Pass.collect q.2) fun _ => True) :
    Answers net Pass.lower (StopsAt (net.firstGap? net.loweredLayers)) := by
  apply hcheck.bind
  refine network (fun _ => rfl) ?_
  rw [← Option.or_none (o := net.firstGap? net.loweredLayers)]
  apply stopsAt_bind
  · exact stopsAt_layers hr (fun q hq => getElem?_of_mem_loweredLayers hq) hgroups _ _ _
  · rintro ⟨b, body⟩
    apply (Returns.report _).bind
    exact stopsAt_pure _

end Pass.Answers

/-- The steps of an expression find their operands, their literals and the sources that they read,
each of the type that it must have. -/
def Network.Prepared (net : Network) (n : NeuronId) (root : NodeId) : Prop :=
  ∃ x r, net.neurons[n]? = some x ∧ RecipeOf net root r ∧
    r.Typed ((net.literalsOf n).map Literal.ty) x.inputTy [] ∧
    ∀ line ∈ r, line.step = .input → line.extent.len ≤ (net.sourcesOf n).length

theorem Neuron.len_inputTy (x : Neuron) {e : Extent} (h : x.inputTy = e.ty) :
    e.len ≤ x.sources.length := by
  unfold Neuron.inputTy at h
  split at h
  · obtain rfl : .scalar .real = e := Extent.ty_injective h
    exact Nat.zero_le _
  · obtain rfl : .vector .real (x.sources.length % UInt32.size) = e := Extent.ty_injective h
    exact Nat.mod_le _ _

theorem Network.Ready.prepared {net : Network} (h : net.Ready) {n : NeuronId} {root : NodeId}
    (hroot : net.forward? n = some root) : net.Prepared n root := by
  obtain ⟨hown, s, hs⟩ := h.checked n root hroot
  obtain ⟨r, hr⟩ := exists_recipe h.wellFormed h.built hs
  obtain ⟨x, hx, _⟩ := Option.bind_eq_some_iff.1 hroot
  have htyped := hr.typed_literalsOf h.wellFormed.ordered hx hroot hown
  refine ⟨x, r, hx, hr, htyped, fun line hline hinput => ?_⟩
  rw [Network.length_sourcesOf hx]
  exact x.len_inputTy (htyped.input hline hinput)

theorem Session.Reachable.ready {s : Session} (hs : s.Reachable)
    (hcheck : Pass.check.result s = .ok ()) : s.net.Ready :=
  ⟨hs.wellFormed, hs.built, (Pass.Answers.check hs.wellFormed).result hs.wellFormed () hcheck⟩

theorem Session.Reachable.check {s : Session} (hs : s.Reachable) :
    Pass.Answers s.net Pass.check (· = Pass.check.result s) :=
  (Pass.Answers.check hs.wellFormed).exact hs.wellFormed

theorem Session.Reachable.check_returns {s : Session} (hs : s.Reachable)
    (hcheck : Pass.check.result s = .ok ()) : Pass.Returns s.net Pass.check () := by
  have hanswers := hs.check
  rwa [hcheck] at hanswers

/-- Grouping that does not end in a defect succeeds. -/
theorem Pass.Yields.collect {s : Session} (hr : s.net.Ready) {l : LayerId} {layer : Layer}
    (hl : s.net.layers[l]? = some layer)
    (h : ∀ d, (Pass.collect l).result s ≠ .error (.defect d)) :
    Yields s.net (Pass.collect l) fun _ => True := by
  have hcollect := hr.collect hl
  cases hgrouping : s.net.grouping l layer.neurons with
  | ok es =>
    rw [hgrouping] at hcollect
    exact hcollect.imp fun r hes => ⟨es, hes, trivial⟩
  | error e =>
    obtain ⟨n, m, _, rfl⟩ := Network.grouping_eq_error hgrouping
    exact absurd ((hcollect.result hr.wellFormed).trans hgrouping) (h _)

/-- Lowering stops where the type check does. Past that, if the layers can be grouped, it stops at
the first neuron without an expression, and nowhere else. -/
theorem lowering_stops_at_first_gap {s : Session} (hs : s.Reachable) :
    (∀ e, Pass.check.result s = .error e → Pass.lower.result s = .error e) ∧
    (Pass.check.result s = .ok () →
      (∀ q ∈ s.net.loweredLayers, ∀ d, (Pass.collect q.2).result s ≠ .error (.defect d)) →
      (∀ n root, s.net.forward? n = some root → s.net.Prepared n root) ∧
      match s.net.firstGap? s.net.loweredLayers with
      | none => ∃ k, Pass.lower.result s = .ok k
      | some (l, p) => Pass.lower.result s = .error (.error (.graph (.missingForward l p)))) := by
  constructor
  · intro e he
    have hcheck := hs.check
    rw [he] at hcheck
    exact (Pass.Answers.bind_error hcheck).result hs.wellFormed
  · intro hok hgroups
    have hr := hs.ready hok
    refine ⟨fun n root hroot => hr.prepared hroot, ?_⟩
    have hstops := Pass.Answers.stopsAt_lower hr (hs.check_returns hok) fun q hq =>
      Pass.Yields.collect hr (getElem?_of_mem_loweredLayers hq) (hgroups q hq)
    have hresult := hstops.result hs.wellFormed
    cases hgap : s.net.firstGap? s.net.loweredLayers with
    | none => rwa [hgap] at hresult
    | some p => rwa [hgap] at hresult

/-- A pyramid with one more neuron in the middle, which has no expression yet. -/
def unfinished : Session := (Request.addNeuron 1 .hidden).run pyramid

theorem unfinished_stops_at_gap : unfinished.Reachable ∧ Pass.check.result unfinished = .ok () ∧
    Pass.lower.result unfinished = .error (.error (.graph (.missingForward 1 2))) := by
  have hs : unfinished.Reachable := .step _ (Session.reachable_ofRequests _)
  have hcheck : Pass.check.result unfinished = .ok () := by decide +kernel
  have hgroups : ∀ q ∈ unfinished.net.loweredLayers,
      ((Pass.collect q.2).result unfinished).isOk = true := by decide +kernel
  have hgap : unfinished.net.firstGap? unfinished.net.loweredLayers = some (1, 2) := by
    decide +kernel
  have hdefect : ∀ q ∈ unfinished.net.loweredLayers, ∀ d,
      (Pass.collect q.2).result unfinished ≠ .error (.defect d) := by
    intro q hq d hd
    have hok := hgroups q hq
    rw [hd] at hok
    cases hok
  have hstops := (lowering_stops_at_first_gap hs).2 hcheck hdefect
  rw [hgap] at hstops
  exact ⟨hs, hcheck, hstops.2⟩

end Synapse
