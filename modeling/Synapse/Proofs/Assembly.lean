import Mathlib.Tactic
import Synapse.Proofs.Edges

namespace Synapse

namespace Network

variable {net net' net'' : Network}

/-- Whether an edge may be added. -/
def Permits (net : Network) (src sink : NeuronId) : Prop := ∃ x, net.sinkOf src sink = .ok x

/-- The sources that edges give to a neuron, in the order of the edges. -/
def newSources (edges : List (NeuronId × NeuronId)) (n : NeuronId) : List NeuronId :=
  (edges.filter fun e => e.2 = n).map (·.1)

/-- A network in which some edges have been added, and nothing else was changed. -/
structure Wires (net net' : Network) (edges : List (NeuronId × NeuronId)) : Prop where
  places : net.SamePlaces net'
  nodes : net'.arena.nodes = net.arena.nodes
  neurons : ∀ (n : NeuronId) (x : Neuron), net.neurons[n]? = some x →
    ∃ y, net'.neurons[n]? = some y ∧ y.kind = x.kind ∧ y.forward = x.forward ∧
      y.sources = x.sources ++ newSources edges n

theorem Permits.of_samePlaces {src sink : NeuronId} (h : net.Permits src sink)
    (hplaces : net.SamePlaces net') : net'.Permits src sink := by
  obtain ⟨x, hx⟩ := h
  obtain ⟨⟨m, hm, hout⟩, hx, hin⟩ := sinkOf_eq_ok.1 hx
  obtain ⟨m', hm', hkind, _⟩ := hplaces.neuron hm
  obtain ⟨x', hx', hkind', _⟩ := hplaces.neuron hx
  have hout' : m'.isOutput = false := by rwa [Neuron.isOutput, hkind]
  have hin' : x'.isInput = false := by rwa [Neuron.isInput, hkind']
  exact ⟨x', sinkOf_eq_ok.2 ⟨⟨m', hm', hout'⟩, hx', hin'⟩⟩

theorem Wires.refl (net : Network) : net.Wires net [] :=
  ⟨⟨fun _ => rfl, fun _ => rfl⟩, rfl, fun _ x hx => ⟨x, hx, rfl, rfl, by simp [newSources]⟩⟩

theorem Wires.trans {edges edges' : List (NeuronId × NeuronId)} (h : net.Wires net' edges)
    (h' : net'.Wires net'' edges') : net.Wires net'' (edges ++ edges') := by
  refine ⟨⟨fun l => ?_, fun n => ?_⟩, h'.nodes.trans h.nodes, ?_⟩
  · exact (h'.places.layers l).trans (h.places.layers l)
  · exact (h'.places.neurons n).trans (h.places.neurons n)
  · intro n x hx
    obtain ⟨y, hy, hkind, hforward, hsources⟩ := h.neurons n x hx
    obtain ⟨z, hz, hkind', hforward', hsources'⟩ := h'.neurons n y hy
    refine ⟨z, hz, hkind'.trans hkind, hforward'.trans hforward, ?_⟩
    simp [hsources', hsources, newSources]

theorem Permits.connect {src sink : NeuronId} (h : net.Permits src sink) :
    ∃ net', net.connect src sink = .ok net' ∧ net.Wires net' [(src, sink)] := by
  obtain ⟨x, hx⟩ := h
  obtain ⟨_, hsink, _⟩ := sinkOf_eq_ok.1 hx
  refine ⟨(net.addEdge src sink).invalidate x.layer, bind_eq_ok.2 ⟨x, hx, rfl⟩,
    (changes_connect hsink src).samePlaces, rfl, fun n y hy => ?_⟩
  refine ⟨_, modify_some (modify_some hy), ?_⟩
  by_cases hn : sink = n <;> by_cases hs : src = n <;> simp [newSources, hn, hs]

/-- Edges that are permitted are added one after the other, since none of them forbids another. -/
theorem connect_all {edges : List (NeuronId × NeuronId)} (h : ∀ e ∈ edges, net.Permits e.1 e.2) :
    ∃ net', edges.foldlM (fun net e => net.connect e.1 e.2) net = .ok net' ∧
      net.Wires net' edges := by
  induction edges generalizing net with
  | nil => exact ⟨net, rfl, .refl net⟩
  | cons e edges ih =>
    obtain ⟨next, hnext, hfirst⟩ := (h e List.mem_cons_self).connect
    have hrest : ∀ e ∈ edges, next.Permits e.1 e.2 := fun e he =>
      (h e (List.mem_cons_of_mem _ he)).of_samePlaces hfirst.places
    obtain ⟨net', hnet', hwires⟩ := ih hrest
    refine ⟨net', ?_, hfirst.trans hwires⟩
    rw [List.foldlM_cons, hnext]
    exact hnet'

/-- All edges from some neurons to others. -/
def product (ms ns : List NeuronId) : List (NeuronId × NeuronId) :=
  ns.flatMap fun n => ms.map fun m => (m, n)

theorem newSources_product {ms ns : List NeuronId} (hns : ns.Nodup) (n : NeuronId) :
    newSources (product ms ns) n = if n ∈ ns then ms else [] := by
  induction ns with
  | nil => rfl
  | cons k ns ih =>
    have ih := ih hns.of_cons
    have hk : k ∉ ns := (List.nodup_cons.1 hns).1
    have hhead : newSources (ms.map fun m => (m, k)) n = if k = n then ms else [] := by
      by_cases hn : k = n <;> simp [newSources, List.filter_map, Function.comp_def, hn]
    have happend : newSources (product ms (k :: ns)) n =
        newSources (ms.map fun m => (m, k)) n ++ newSources (product ms ns) n := by
      simp [newSources, product]
    rw [happend, hhead, ih]
    by_cases hn : k = n
    · simp [hn, hn ▸ hk]
    · simp [hn, Ne.symm hn]

/-- Two layers that are connected in full are connected by all edges from the one to the other. -/
theorem edgesBetween_full {src sink : LayerId} {ms ns : List NeuronId} {wanted : Connections}
    (hms : net.layers[src]?.map Layer.neurons = some ms)
    (hns : net.layers[sink]?.map Layer.neurons = some ns)
    (hwanted : ∀ p < ns.length, wanted p = some (List.range ms.length))
    (hpermits : ∀ m ∈ ms, ∀ n ∈ ns, net.Permits m n) :
    net.edgesBetween src sink wanted = .ok (product ms ns) := by
  obtain ⟨above, habove, rfl⟩ := Option.map_eq_some_iff.1 hms
  obtain ⟨layer, hlayer, rfl⟩ := Option.map_eq_some_iff.1 hns
  have hinto : ∀ (p : Nat) (n : NeuronId), layer.neurons[p]? = some n →
      net.edgesInto src sink wanted p = .ok (above.neurons.map fun m => (m, n)) := by
    intro p n hn
    have hp : p < layer.neurons.length := (List.getElem?_eq_some_iff.1 hn).1
    have hedges : (List.range above.neurons.length).mapM (net.edgeFrom src n) =
        .ok (above.neurons.map fun m => (m, n)) := by
      refine mapM_eq_pure (List.forall₂_map_right_iff.2 (forall₂_range fun q m hm => ?_))
      obtain ⟨x, hx⟩ := hpermits m (List.mem_of_getElem? hm) n (List.mem_of_getElem? hn)
      exact bind_eq_ok.2 ⟨m, neuronAt_eq_ok.2 ⟨above, habove, hm⟩, bind_eq_ok.2 ⟨x, hx, rfl⟩⟩
    rw [edgesInto, hwanted p hp]
    exact bind_eq_ok.2 ⟨n, neuronAt_eq_ok.2 ⟨layer, hlayer, hn⟩, hedges⟩
  have hall : (List.range layer.neurons.length).mapM (net.edgesInto src sink wanted) =
      .ok (layer.neurons.map fun n => above.neurons.map fun m => (m, n)) :=
    mapM_eq_pure (List.forall₂_map_right_iff.2 (forall₂_range hinto))
  refine bind_eq_ok.2 ⟨layer, orDefect_eq_ok.2 (layer_eq_ok.2 hlayer), ?_⟩
  exact bind_eq_ok.2 ⟨_, hall, rfl⟩

end Network

namespace Pass

variable {s : Session}

theorem run_orDefect_of_ok {α β : Type} {g : Network → Except Defect α} {f : α → Pass β} {a : α}
    (h : g s.net = .ok a) : (network >>= fun net => orDefect (g net) >>= f) s = f a s := by
  have hfound : (orDefect (g s.net) : Pass α) s = .ok a s := by
    rw [h]
    rfl
  exact (bind_of_ok (x := network) rfl).trans (bind_of_ok hfound)

theorem run_orFail_of_ok {α β : Type} {g : Network → Except Failure α} {f : α → Pass β} {a : α}
    (h : g s.net = .ok a) : (network >>= fun net => orFail (g net) >>= f) s = f a s := by
  have hfound : (orFail (g s.net) : Pass α) s = .ok a s := by
    rw [h]
    rfl
  exact (bind_of_ok (x := network) rfl).trans (bind_of_ok hfound)

theorem run_orFail_of_error {α β : Type} {g : Network → Except Failure α} {f : α → Pass β}
    {e : Failure} (h : g s.net = .error e) :
    (network >>= fun net => orFail (g net) >>= f) s = .error e s := by
  have hstop : (orFail (g s.net) : Pass α) s = .error e s := by
    rw [h]
    rfl
  exact (bind_of_ok (x := network) rfl).trans (bind_of_error hstop)

/-- Edges are added to the network of a session one after the other. -/
theorem forM_connect_of_ok {edges : List (NeuronId × NeuronId)} {net' : Network}
    (h : edges.foldlM (fun net e => net.connect e.1 e.2) s.net = .ok net') :
    (edges.forM fun e => connect e.1 e.2) s = .ok () { s with net := net' } := by
  induction edges generalizing s with
  | nil =>
    obtain rfl : s.net = net' := Except.ok.inj h
    rfl
  | cons e edges ih =>
    rw [List.foldlM_cons] at h
    obtain ⟨next, hnext, h⟩ := bind_eq_ok.1 h
    have hfirst : connect e.1 e.2 s = .ok () { s with net := next } :=
      run_orFail_of_ok (g := fun net => net.connect e.1 e.2) hnext
    exact (bind_of_ok hfirst).trans (ih (s := { s with net := next }) h)

/-- Edges that are found and permitted are added. -/
theorem connectLayers_of_ok {src sink : LayerId} {wanted : Network.Connections}
    {edges : List (NeuronId × NeuronId)} {net' : Network}
    (hedges : s.net.edgesBetween src sink wanted = .ok edges)
    (hconnect : edges.foldlM (fun net e => net.connect e.1 e.2) s.net = .ok net') :
    connectLayers src sink wanted s =
      .ok () ⟨net', s.log.push (.connecting src sink edges.length)⟩ := by
  rw [connectLayers, run_orFail_of_ok (g := fun net => net.edgesBetween src sink wanted) hedges]
  have hreport : report (.connecting src sink edges.length) s =
      .ok () { s with log := s.log.push (.connecting src sink edges.length) } := rfl
  exact (bind_of_ok hreport).trans (forM_connect_of_ok hconnect)

end Pass

/-- A pass that builds: on networks of which `P` holds it succeeds, and `Q` holds of its result and
of the network that it leaves. -/
def Pass.Builds {α : Type} (P : Network → Prop) (x : Pass α) (Q : α → Network → Prop) : Prop :=
  ∀ s : Session, s.Reachable → P s.net →
    ∃ a s', x s = .ok a s' ∧ s'.Reachable ∧ Q a s'.net

namespace Pass.Builds

variable {α β : Type} {P : Network → Prop}

theorem of_request {x : Pass α} {Q : α → Network → Prop} (r : Request)
    (hr : ∀ s, r.run s = x.after s)
    (hx : ∀ s : Session, P s.net → ∃ a s', x s = .ok a s' ∧ Q a s'.net) : Builds P x Q := by
  intro s hs hp
  obtain ⟨a, s', hrun, hq⟩ := hx s hp
  have hafter : r.run s = s' := by rw [hr, after, hrun]
  exact ⟨a, s', hrun, hafter ▸ .step r hs, hq⟩

theorem pure {Q : α → Network → Prop} {a : α} (h : ∀ net, P net → Q a net) :
    Builds P (Pure.pure a) Q :=
  fun s hs hp => ⟨a, s, rfl, hs, h _ hp⟩

theorem bind {x : Pass α} {f : α → Pass β} {Q : α → Network → Prop} {R : β → Network → Prop}
    (hx : Builds P x Q) (hf : ∀ a, Builds (Q a) (f a) R) : Builds P (x >>= f) R := by
  intro s hs hp
  obtain ⟨a, s', hrun, hs', hq⟩ := hx s hs hp
  obtain ⟨b, s'', hrun', hs'', hr⟩ := hf a s' hs' hq
  exact ⟨b, s'', (bind_of_ok hrun).trans hrun', hs'', hr⟩

/-- What does not depend on the network may be assumed. -/
theorem assuming {p : Prop} {x : Pass α} {Q : α → Network → Prop} (h : p → Builds P x Q) :
    Builds (fun net => p ∧ P net) x Q :=
  fun s hs hp => h hp.1 s hs hp.2

/-- A loop builds what its rounds build, one after the other. -/
theorem forM (I : Nat → Network → Prop) {f : α → Pass PUnit} {xs : List α}
    (h : ∀ (i : Nat) (x : α), xs[i]? = some x → Builds (I i) (f x) fun _ => I (i + 1)) :
    Builds (I 0) (xs.forM f) fun _ => I xs.length := by
  induction xs generalizing I with
  | nil => exact pure fun _ hi => hi
  | cons x xs ih =>
    -- the rounds after the first start from what that one has built
    have hrest := ih (fun i => I (i + 1)) fun i y hy => h (i + 1) y hy
    exact (h 0 x rfl).bind fun _ => hrest

theorem foldlM (I : Nat → β → Network → Prop) {f : β → α → Pass β} {xs : List α}
    (h : ∀ (i : Nat) (x : α) (b : β), xs[i]? = some x → Builds (I i b) (f b x) (I (i + 1)))
    (b : β) : Builds (I 0 b) (xs.foldlM f b) (I xs.length) := by
  induction xs generalizing I b with
  | nil => exact pure fun _ hi => hi
  | cons x xs ih =>
    rw [List.foldlM_cons]
    exact (h 0 x b rfl).bind (ih (fun i => I (i + 1)) fun i y c hy => h (i + 1) y c hy)

theorem mapM (I : Nat → Network → Prop) (g : Nat → β) {f : α → Pass β} {xs : List α}
    (h : ∀ (i : Nat) (x : α), xs[i]? = some x →
      Builds (I i) (f x) fun b net => b = g i ∧ I (i + 1) net) :
    Builds (I 0) (xs.mapM f) fun bs net => bs = (List.range xs.length).map g ∧ I xs.length net := by
  induction xs generalizing I g with
  | nil => exact pure fun _ hi => ⟨rfl, hi⟩
  | cons x xs ih =>
    rw [List.mapM_cons]
    have hrest := ih (fun i => I (i + 1)) (fun i => g (i + 1)) fun i y hy => h (i + 1) y hy
    refine (h 0 x rfl).bind fun b => assuming fun hb => hrest.bind fun bs => assuming fun hbs => ?_
    refine pure fun net hi => ⟨?_, hi⟩
    simp [hb, hbs, List.range_succ_eq_map, Function.comp_def]

theorem addLayer {Q : LayerId → Network → Prop}
    (h : ∀ net, P net → Q net.layers.size net.addLayer.1) : Builds P Pass.addLayer Q :=
  of_request .addLayer (fun _ => rfl) fun s hp => ⟨_, _, rfl, h s.net hp⟩

theorem addNeuron {l : LayerId} {kind : NeuronKind} {Q : NeuronId → Network → Prop}
    (h : ∀ net, P net → ∃ q, net.addNeuron l kind = .ok q ∧ Q q.2 q.1) :
    Builds P (Pass.addNeuron l kind) Q := by
  refine of_request (.addNeuron l kind) (fun _ => rfl) fun s hp => ?_
  obtain ⟨q, hq, hnet⟩ := h s.net hp
  refine ⟨q.2, { s with net := q.1 }, ?_, hnet⟩
  exact run_orDefect_of_ok (g := fun net => net.addNeuron l kind) hq

theorem setForward {n : NeuronId} {e : Sketch} {Q : NodeId → Network → Prop}
    (h : ∀ net, P net → ∃ x, net.neurons[n]? = some x ∧
      Q (net.arena.intern e).2 (net.withForward n x e)) : Builds P (Pass.setForward n e) Q := by
  refine of_request (.setForward n e) (fun _ => rfl) fun s hp => ?_
  obtain ⟨x, hx, hnet⟩ := h s.net hp
  have hset : s.net.setForward n e = (s.net.withForward n x e, .ok (s.net.arena.intern e).2) := by
    simp only [Network.setForward, Network.neuron_eq_ok.2 hx]
    rfl
  refine ⟨_, { s with net := s.net.withForward n x e }, ?_, hnet⟩
  change (Pass.setNetwork (s.net.setForward n e).1 >>= fun _ =>
    orDefect (s.net.setForward n e).2 : Pass _) s = _
  rw [hset]
  rfl

theorem addProperty {n : NeuronId} {name : String} {value : Property} {Q : Nat → Network → Prop}
    (h : ∀ net, P net → ∃ q, net.addProperty n name value = .ok q ∧ Q q.2 q.1) :
    Builds P (Pass.addProperty n name value) Q := by
  refine of_request (.addProperty n name value) (fun _ => rfl) fun s hp => ?_
  obtain ⟨q, hq, hnet⟩ := h s.net hp
  refine ⟨q.2, { s with net := q.1 }, ?_, hnet⟩
  exact run_orDefect_of_ok (g := fun net => net.addProperty n name value) hq

theorem connectLayers {src sink : LayerId} {wanted : Network.Connections}
    {Q : Unit → Network → Prop}
    (h : ∀ net, P net → ∃ edges, net.edgesBetween src sink wanted = .ok edges ∧
      (∀ e ∈ edges, net.Permits e.1 e.2) ∧ ∀ net', net.Wires net' edges → Q () net') :
    Builds P (Pass.connectLayers src sink wanted) Q := by
  refine of_request (.connectLayers src sink wanted) (fun _ => rfl) fun s hp => ?_
  obtain ⟨edges, hedges, hpermits, hnet⟩ := h s.net hp
  obtain ⟨net', hconnect, hwires⟩ := Network.connect_all hpermits
  exact ⟨(), _, connectLayers_of_ok hedges hconnect, hnet net' hwires⟩

end Pass.Builds

end Synapse
