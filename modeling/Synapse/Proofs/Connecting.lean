import Mathlib.Tactic
import Synapse.Proofs.Assembly

namespace Synapse

/-- One thing that is demanded when layers are connected. -/
inductive Demand where
  /-- An edge from a position of the source layer. -/
  | edge (source : Nat) (sink : NeuronId)
  /-- The entry that a position of the sink layer lacks. -/
  | entry (position : Nat)

namespace Network

variable {net net' : Network} {src sink : LayerId}

/-- What a map of connections demands for the neuron at a position. -/
def demandsAt (wanted : Connections) (n : NeuronId) (position : Nat) : List Demand :=
  match wanted position with
  | none => [.entry position]
  | some sources => sources.map (.edge · n)

/-- What a map of connections demands for the neurons of a layer, in order. -/
def demands (wanted : Connections) (layer : Layer) : List Demand :=
  layer.neurons.zipIdx.flatMap fun q => demandsAt wanted q.1 q.2

/-- The edge that is demanded, if there is one and it is permitted. -/
def meet (net : Network) (src sink : LayerId) : Demand → Except Failure (NeuronId × NeuronId)
  | .edge source n => net.edgeFrom src n source
  | .entry position => .error (.error (.graph (.missingConnections sink position)))

theorem edgesInto_eq {wanted : Connections} {n : NeuronId} {position : Nat}
    (hat : net.neuronAt sink position = .ok n) :
    net.edgesInto src sink wanted position =
      (demandsAt wanted n position).mapM (net.meet src sink) := by
  rw [edgesInto, demandsAt]
  cases wanted position with
  | none => rfl
  | some sources =>
    rw [hat, List.mapM_map]
    rfl

/-- Layers are connected by the edges that are demanded. -/
theorem edgesBetween_eq {wanted : Connections} {layer : Layer}
    (hlayer : net.layers[sink]? = some layer) :
    net.edgesBetween src sink wanted = (demands wanted layer).mapM (net.meet src sink) := by
  have hinto : (List.range layer.neurons.length).mapM (net.edgesInto src sink wanted) =
      layer.neurons.zipIdx.mapM fun q => (demandsAt wanted q.1 q.2).mapM (net.meet src sink) := by
    rw [List.range_eq_range', ← List.zipIdx_map_snd, List.mapM_map]
    refine mapM_congr fun q hq => edgesInto_eq (neuronAt_eq_ok.2 ⟨layer, hlayer, ?_⟩)
    exact List.mem_zipIdx_iff_getElem?.1 hq
  rw [demands, mapM_flatMap, ← hinto, edgesBetween, layer_eq_ok.2 hlayer]
  rfl

namespace SamePlaces

theorem trans {net'' : Network} (h : net.SamePlaces net') (h' : net'.SamePlaces net'') :
    net.SamePlaces net'' :=
  ⟨fun l => (h'.layers l).trans (h.layers l), fun n => (h'.neurons n).trans (h.neurons n)⟩

theorem neuronAt_eq (h : net.SamePlaces net') (l : LayerId) (p : Nat) :
    net'.neuronAt l p = net.neuronAt l p := by
  have hlayer := h.layers l
  simp only [neuronAt, Network.layer, size_eq_of_getElem? h.layers]
  cases hl : net.layers[l]? with
  | none =>
    rw [hl, Option.map_none, Option.map_eq_none_iff] at hlayer
    rw [hlayer]
  | some layer =>
    rw [hl, Option.map_some] at hlayer
    obtain ⟨layer', hl', hneurons⟩ := Option.map_eq_some_iff.1 hlayer
    simp only [hl', orDefect, pure_bind, hneurons]

theorem neuron_none (h : net.SamePlaces net') {n : NeuronId} (hn : net.neurons[n]? = none) :
    net'.neurons[n]? = none := by
  have hneuron := h.neurons n
  rwa [hn, Option.map_none, Option.map_eq_none_iff] at hneuron

/-- Whether an edge is permitted depends on the kinds of its ends. -/
theorem sinkOf_eq (h : net.SamePlaces net') (m n : NeuronId) :
    (net'.sinkOf m n).map Network.place = (net.sinkOf m n).map Network.place := by
  simp only [sinkOf, Network.neuron, size_eq_of_getElem? h.neurons]
  cases hm : net.neurons[m]? with
  | none =>
    rw [h.neuron_none hm]
    rfl
  | some x =>
    obtain ⟨x', hx', hkind, _⟩ := h.neuron hm
    have hout : x'.isOutput = x.isOutput := congrArg (· == .output) hkind
    simp only [hx', orDefect, pure_bind, hout]
    cases x.isOutput with
    | true => rfl
    | false =>
      cases hn : net.neurons[n]? with
      | none => rw [h.neuron_none hn]
      | some y =>
        obtain ⟨y', hy', hkind', hlayer, hposition⟩ := h.neuron hn
        have hin : y'.isInput = y.isInput := congrArg (· == .input) hkind'
        simp only [hy', pure_bind, hin]
        cases y.isInput with
        | true => rfl
        | false => exact congrArg Except.ok (Prod.ext hkind' (Prod.ext hlayer hposition))

theorem edgeFrom_eq (h : net.SamePlaces net') (src : LayerId) (n : NeuronId) (p : Nat) :
    net'.edgeFrom src n p = net.edgeFrom src n p := by
  rw [edgeFrom, edgeFrom, h.neuronAt_eq]
  refine congrArg (net.neuronAt src p >>= ·) (funext fun m => ?_)
  have hsink := h.sinkOf_eq m n
  cases hm : net.sinkOf m n <;> cases hm' : net'.sinkOf m n <;> rw [hm, hm'] at hsink
  · rw [Except.error.inj hsink]
  · cases hsink
  · cases hsink
  · rfl

theorem meet_eq (h : net.SamePlaces net') (src sink : LayerId) (d : Demand) :
    net'.meet src sink d = net.meet src sink d := by
  cases d with
  | edge source n => exact h.edgeFrom_eq src n source
  | entry position => rfl

end SamePlaces

theorem sinkOf_eq_error {m n : NeuronId} {x y : Neuron} {e : Failure}
    (hx : net.neurons[m]? = some x) (hy : net.neurons[n]? = some y)
    (h : net.sinkOf m n = .error e) : ∃ g, e = .error (.graph g) := by
  simp only [sinkOf, neuron_eq_ok.2 hx, neuron_eq_ok.2 hy, orDefect, pure_bind] at h
  split at h
  · exact ⟨_, (Except.error.inj h).symm⟩
  · split at h
    · exact ⟨_, (Except.error.inj h).symm⟩
    · cases h

end Network

namespace Pass

variable {src sink : LayerId} {s : Session}

/-- Connects two layers edge by edge. An edge is added as soon as its source has been looked up, and
stays when a later one is refused. -/
def connectEach (src sink : LayerId) (wanted : Network.Connections) : Pass Unit := do
  let layer ← Pass.layer sink
  layer.neurons.zipIdx.forM fun q =>
    match wanted q.2 with
    | none => throw (.error (.graph (.missingConnections sink q.2)))
    | some sources => sources.forM fun position => do
      let source ← orFail ((← network).neuronAt src position)
      connect source q.1

/-- Adds the edge that is demanded. -/
def answer (src sink : LayerId) : Demand → Pass Unit
  | .edge position n => do
    let source ← orFail ((← network).neuronAt src position)
    connect source n
  | .entry position => throw (.error (.graph (.missingConnections sink position)))

theorem connectEach_eq {wanted : Network.Connections} {layer : Layer}
    (hlayer : s.net.layers[sink]? = some layer) :
    connectEach src sink wanted s = (Network.demands wanted layer).forM (answer src sink) s := by
  have hfound : Pass.layer sink s = .ok layer s := by
    change (orDefect (s.net.layer sink) : Pass _) s = _
    rw [Network.layer_eq_ok.2 hlayer]
    rfl
  rw [connectEach, bind_of_ok hfound, Network.demands, forM_flatMap]
  refine congrFun (congrArg layer.neurons.zipIdx.forM (funext fun q => ?_)) s
  rw [Network.demandsAt]
  cases wanted q.2 with
  | none => rfl
  | some sources =>
    exact (List.forM_map (l := sources) (g := (Demand.edge · q.1)) (f := answer src sink)).symm

/-- An edge that is found is added. -/
theorem answer_of_ok {d : Demand} {e : NeuronId × NeuronId}
    (h : s.net.meet src sink d = .ok e) :
    ∃ net', s.net.connect e.1 e.2 = .ok net' ∧ s.net.SamePlaces net' ∧
      answer src sink d s = .ok () { s with net := net' } := by
  cases d with
  | entry position => cases h
  | edge position n =>
    obtain ⟨m, hm, h⟩ := bind_eq_ok.1 h
    obtain ⟨x, hx, h⟩ := bind_eq_ok.1 h
    obtain rfl : (m, n) = e := Except.ok.inj h
    obtain ⟨net', hnet', hwires⟩ := Network.Permits.connect ⟨x, hx⟩
    refine ⟨net', hnet', hwires.places, ?_⟩
    rw [answer, run_orFail_of_ok (g := fun net => net.neuronAt src position) hm]
    exact run_orFail_of_ok (g := fun net => net.connect m n) hnet'

/-- A demand that is refused stops with its error and changes nothing. -/
theorem answer_of_error {d : Demand} {e : Failure} (h : s.net.meet src sink d = .error e) :
    answer src sink d s = .error e s := by
  cases d with
  | entry position =>
    obtain rfl := Except.error.inj h
    rfl
  | edge position n =>
    rcases bind_eq_error.1 h with hm | ⟨m, hm, h⟩
    · exact run_orFail_of_error (g := fun net => net.neuronAt src position) hm
    · rw [answer, run_orFail_of_ok (g := fun net => net.neuronAt src position) hm]
      refine run_orFail_of_error (g := fun net => net.connect m n) ?_
      rcases bind_eq_error.1 h with hsink | ⟨x, _, h⟩
      · exact bind_eq_error.2 (.inl hsink)
      · cases h

/-- Edges that are all found are all added. -/
theorem forM_answer_of_ok {ds : List Demand} {edges : List (NeuronId × NeuronId)}
    (h : ds.mapM (s.net.meet src sink) = .ok edges) :
    ∃ net', edges.foldlM (fun net e => net.connect e.1 e.2) s.net = .ok net' ∧
      s.net.SamePlaces net' ∧ ds.forM (answer src sink) s = .ok () { s with net := net' } := by
  induction ds generalizing s edges with
  | nil =>
    obtain rfl : [] = edges := Except.ok.inj h
    exact ⟨s.net, rfl, ⟨fun _ => rfl, fun _ => rfl⟩, rfl⟩
  | cons d ds ih =>
    rw [List.mapM_cons] at h
    obtain ⟨e, he, h⟩ := bind_eq_ok.1 h
    obtain ⟨edges', hedges', h⟩ := bind_eq_ok.1 h
    obtain rfl : e :: edges' = edges := Except.ok.inj h
    obtain ⟨next, hnext, hplaces, hrun⟩ := answer_of_ok he
    -- what is demanded next is found as it was before the edge
    have hsame : next.meet src sink = s.net.meet src sink := funext (hplaces.meet_eq src sink)
    obtain ⟨net', hnet', hplaces', hrest⟩ := ih (s := { s with net := next }) (hsame ▸ hedges')
    refine ⟨net', ?_, hplaces.trans hplaces', (bind_of_ok hrun).trans hrest⟩
    rw [List.foldlM_cons, hnext]
    exact hnet'

/-- Where a demand is refused, the edges that were found before it have been added. -/
theorem forM_answer_of_error {ds : List Demand} {e : Failure}
    (h : ds.mapM (s.net.meet src sink) = .error e) :
    ∃ before d after edges net', ds = before ++ d :: after ∧
      before.mapM (s.net.meet src sink) = .ok edges ∧ s.net.meet src sink d = .error e ∧
      edges.foldlM (fun net e => net.connect e.1 e.2) s.net = .ok net' ∧
      ds.forM (answer src sink) s = .error e { s with net := net' } := by
  obtain ⟨before, d, after, edges, rfl, hbefore, hd⟩ := mapM_eq_error h
  obtain ⟨net', hnet', hplaces, hrun⟩ := forM_answer_of_ok hbefore
  refine ⟨before, d, after, edges, net', rfl, hbefore, hd, hnet', ?_⟩
  have hstop : answer src sink d { s with net := net' } = .error e { s with net := net' } :=
    answer_of_error (s := { s with net := net' }) ((hplaces.meet_eq src sink d).trans hd)
  calc (before ++ d :: after).forM (answer src sink) s
      = (before.forM (answer src sink) >>= fun _ => (d :: after).forM (answer src sink)) s :=
        congrFun List.forM_append s
    _ = (answer src sink d >>= fun _ => after.forM (answer src sink)) { s with net := net' } :=
        bind_of_ok hrun
    _ = .error e { s with net := net' } := bind_of_error hstop

theorem connectLayers_of_error {wanted : Network.Connections} {e : Failure}
    (h : s.net.edgesBetween src sink wanted = .error e) :
    connectLayers src sink wanted s = .error e s :=
  run_orFail_of_error (g := fun net => net.edgesBetween src sink wanted) h

end Pass

namespace Network

variable {net : Network} {src sink : LayerId}

/-- Where the layers are there, only the edges themselves can be wrong. -/
theorem WellFormed.meet_eq_error (hw : net.WellFormed) {above layer : Layer}
    (habove : net.layers[src]? = some above) (hlayer : net.layers[sink]? = some layer)
    {wanted : Connections} {d : Demand} (hd : d ∈ demands wanted layer) {e : Failure}
    (h : net.meet src sink d = .error e) : ∃ g, e = .error (.graph g) := by
  cases d with
  | entry position => exact ⟨_, (Except.error.inj h).symm⟩
  | edge position n =>
    obtain ⟨q, hq, hd⟩ := List.mem_flatMap.1 hd
    obtain rfl : q.1 = n := by
      unfold demandsAt at hd
      split at hd <;> simp_all
    obtain ⟨y, hy, _⟩ := hw.neuron_of_mem hlayer (List.fst_mem_of_mem_zipIdx hq)
    rcases bind_eq_error.1 h with hm | ⟨m, hm, h⟩
    · rcases bind_eq_error.1 hm with hl | ⟨layer', hl, hm⟩
      · rw [layer_eq_ok.2 habove] at hl
        cases hl
      · split at hm
        · cases hm
        · exact ⟨_, (Except.error.inj hm).symm⟩
    · obtain ⟨layer', hl, hp⟩ := neuronAt_eq_ok.1 hm
      obtain ⟨x, hx, _⟩ := hw.placed src layer' position m hl hp
      rcases bind_eq_error.1 h with hsink | ⟨z, _, h⟩
      · exact sinkOf_eq_error hx hy hsink
      · cases h

end Network

/-- Connecting layers as a whole has the outcome of connecting them edge by edge, and where it
succeeds it leaves the same network. Where it fails it leaves the session as it was; edge by edge,
the edges demanded before the one that is refused would have stayed. -/
theorem connecting_layers_atomic {s : Session} (hs : s.Reachable) {src sink : LayerId}
    {above layer : Layer} (habove : s.net.layers[src]? = some above)
    (hlayer : s.net.layers[sink]? = some layer) (wanted : Network.Connections) :
    (Pass.connectLayers src sink wanted).result s = (Pass.connectEach src sink wanted).result s ∧
    ((Pass.connectLayers src sink wanted).result s = .ok () →
      ((Pass.connectLayers src sink wanted).after s).net =
        ((Pass.connectEach src sink wanted).after s).net) ∧
    ∀ e, (Pass.connectLayers src sink wanted).result s = .error e →
      (∃ g, e = .error (.graph g)) ∧ (Pass.connectLayers src sink wanted).after s = s ∧
      ∃ before d after edges, Network.demands wanted layer = before ++ d :: after ∧
        before.mapM (s.net.meet src sink) = .ok edges ∧ s.net.meet src sink d = .error e ∧
        edges.foldlM (fun net e => net.connect e.1 e.2) s.net =
          .ok ((Pass.connectEach src sink wanted).after s).net := by
  have heach : Pass.connectEach src sink wanted s = _ := Pass.connectEach_eq hlayer
  have hedges : s.net.edgesBetween src sink wanted = _ := Network.edgesBetween_eq hlayer
  cases hfound : (Network.demands wanted layer).mapM (s.net.meet src sink) with
  | ok edges =>
    obtain ⟨net', hnet', _, hrun⟩ := Pass.forM_answer_of_ok hfound
    have hlayers := Pass.connectLayers_of_ok (hedges.trans hfound) hnet'
    rw [hrun] at heach
    simp [Pass.result, Pass.after, hlayers, heach]
  | error e =>
    obtain ⟨before, d, after, edges, net', hds, hbefore, hd, hnet', hrun⟩ :=
      Pass.forM_answer_of_error hfound
    have hlayers := Pass.connectLayers_of_error (hedges.trans hfound)
    have hmem : d ∈ Network.demands wanted layer := by simp [hds]
    have hgraph := hs.wellFormed.meet_eq_error habove hlayer hmem hd
    rw [hrun] at heach
    simp only [Pass.result, Pass.after, hlayers, heach, true_and, Except.error.injEq, reduceCtorEq,
      false_implies]
    rintro _ rfl
    exact ⟨hgraph, before, d, after, edges, hds, hbefore, hd, hnet'⟩

/-- Two layers that have been grouped; the second ends in an input neuron. -/
def halfway : Session := .ofRequests [.addLayer, .addNeuron 0 .input, .addNeuron 0 .hidden,
  .addLayer, .addNeuron 1 .hidden, .addNeuron 1 .input,
  .setForward 2 { above := [.literal (.int 4)], last := .unary .plus 0 }, .check, .group]

/-- From the first layer to itself all edges are permitted. To the second layer the last ones are
not, and edge by edge those before them would have stayed, at the cost of what was stored. -/
theorem halfway_atomic : halfway.Reachable ∧
    (let wanted p := some (if p = 0 then [] else [0, 1])
     let s := (Pass.connectLayers 0 0 wanted).after halfway
     s.net.neurons[1]?.map (·.sources) = some [0, 1] ∧
       s.net = ((Pass.connectEach 0 0 wanted).after halfway).net) ∧
    (let wanted _ := some [0, 1]
     let s := (Pass.connectEach 0 1 wanted).after halfway
     (Pass.connectLayers 0 1 wanted).result halfway = .error (.error (.graph .inputAsSink)) ∧
       (Pass.connectEach 0 1 wanted).result halfway = .error (.error (.graph .inputAsSink)) ∧
       (Pass.connectLayers 0 1 wanted).after halfway = halfway ∧
       halfway.net.neurons[2]?.map (·.sources) = some [] ∧
       halfway.net.layers[1]?.map (·.ensembles.isSome) = some true ∧
       halfway.net.arena.types.toList = [(0, .int), (1, .int)] ∧
       s.net.neurons[2]?.map (·.sources) = some [0, 1] ∧
       s.net.layers[1]?.map (·.ensembles.isSome) = some false ∧ s.net.arena.types.toList = []) := by
  have hs : halfway.Reachable := Session.reachable_ofRequests _
  have hfirst : halfway.net.layers[0]?.isSome = true := by decide +kernel
  have hsecond : halfway.net.layers[1]?.isSome = true := by decide +kernel
  obtain ⟨first, hfirst⟩ := Option.isSome_iff_exists.1 hfirst
  obtain ⟨second, hsecond⟩ := Option.isSome_iff_exists.1 hsecond
  obtain ⟨-, hsame, -⟩ := connecting_layers_atomic hs hfirst hfirst
    fun p => some (if p = 0 then [] else [0, 1])
  obtain ⟨hresult, -, hkept⟩ := connecting_layers_atomic hs hfirst hsecond fun _ => some [0, 1]
  have herror : (Pass.connectLayers 0 1 fun _ => some [0, 1]).result halfway =
      .error (.error (.graph .inputAsSink)) := by decide +kernel
  refine ⟨hs, ⟨by decide +kernel, hsame (by decide +kernel)⟩, herror, hresult ▸ herror,
    (hkept _ herror).2.1, ?_⟩
  decide +kernel

end Synapse
