import Mathlib.Tactic
import Synapse.Proofs.Listings
import Synapse.Proofs.Regrouping

namespace Synapse

namespace Network

variable {net net' : Network}

/-- What is stored for a layer is what grouping finds, provided that its neurons read their own
inputs only. -/
def Fresh (net : Network) : Prop :=
  ∀ (l : LayerId) (layer : Layer) (es : List Ensemble), net.layers[l]? = some layer →
    layer.ensembles = some es → (∀ n ∈ layer.neurons, net.Owned n) →
      net.grouping l layer.neurons = .ok es

theorem fresh_empty : ({} : Network).Fresh := by
  intro l layer es hl
  simp at hl

/-- A layer whose grouping outlives a change keeps its neurons. -/
theorem Evolves.retains (hw : net.WellFormed) (h : net.Evolves net') {l : LayerId} {layer : Layer}
    (hl : net.layers[l]? = some layer)
    (hkept : ∀ n ∈ layer.neurons, ∀ x, net.neurons[n]? = some x →
      ∃ y, net'.neurons[n]? = some y ∧ y.sources = x.sources ∧ y.forward = x.forward) :
    net.Retains net' layer.neurons := by
  have hneuron : ∀ n ∈ layer.neurons, ∃ x y, net.neurons[n]? = some x ∧
      net'.neurons[n]? = some y ∧ y.kind = x.kind ∧ y.sources = x.sources ∧
      y.forward = x.forward := by
    intro n hn
    obtain ⟨x, hx, _⟩ := hw.neuron_of_mem hl hn
    obtain ⟨y, hy, hsources, hforward⟩ := hkept n hn x hx
    obtain ⟨z, hz, hkind, _⟩ := h.neurons n x hx
    obtain rfl : y = z := Option.some.inj (hy.symm.trans hz)
    exact ⟨x, y, hx, hy, hkind, hsources, hforward⟩
  refine ⟨h.nodes, fun n hn => ?_, fun n hn => ?_⟩
  · obtain ⟨x, y, hx, hy, hkind, hsources, hforward⟩ := hneuron n hn
    exact ⟨x, y, hx, hy, hforward, Neuron.inputTy_congr hkind hsources⟩
  · obtain ⟨x, y, hx, hy, _, hsources, _⟩ := hneuron n hn
    rw [sourcesOf_eq hx, sourcesOf_eq hy]
    exact h.sourcePositions (hw.sourced n x hx) hsources

theorem Fresh.evolve (hf : net.Fresh) (hw : net.WellFormed) (hb : net.Built)
    (h : net.Evolves net') (ho : Arena.Ordered net'.arena.nodes) : net'.Fresh := by
  intro l layer es hl hes hown
  obtain ⟨hl, hkept⟩ := h.stored l layer es hl hes
  have hretains := h.retains hw hl hkept
  have hown' : ∀ n ∈ layer.neurons, net.Owned n := fun n hn =>
    hretains.owned_of_rooted hn (hb.rooted n) (hown n hn)
  rw [hretains.grouping hw.ordered ho hown']
  exact hf l layer es hl hes hown'

theorem regroups_store (net : Network) (l : LayerId) (es : List Ensemble) :
    net.Regroups (net.store l es) := by
  refine ⟨List.ext_getElem? fun j => ?_, rfl, rfl⟩
  have hplaces := (net.samePlaces_store l es).layers j
  simpa using hplaces

theorem Regroups.grouping (h : net.Regroups net') (ho : Arena.Ordered net.arena.nodes)
    {ns : List NeuronId} (hown : ∀ n ∈ ns, net.Owned n) (l : LayerId) :
    net'.grouping l ns = net.grouping l ns := by
  have hretains : net.Retains net' ns := h.retains fun n hn => by
    obtain ⟨x, hx, _⟩ := hown n hn
    exact ⟨x, hx⟩
  exact hretains.grouping ho (h.nodes ▸ ho) hown l

theorem Regroups.owned (h : net.Regroups net') {n : NeuronId} (hown : net.Owned n) :
    net'.Owned n := by
  obtain ⟨x, hx, hreads⟩ := hown
  refine ⟨x, h.neurons ▸ hx, fun root hroot => ?_⟩
  rw [h.nodes]
  exact hreads root hroot

theorem Fresh.store (hf : net.Fresh) (hw : net.WellFormed) {l : LayerId} {es : List Ensemble}
    (h : Pass.Answers net (Pass.collect l) (· = .ok es)) : (net.store l es).Fresh := by
  intro j layer es' hj hes' hown
  have hregroups := net.regroups_store l es
  have hown' : ∀ n ∈ layer.neurons, net.Owned n := fun n hn => hregroups.symm.owned (hown n hn)
  rw [hregroups.grouping hw.ordered hown']
  rcases stored_store hj hes' with hj | ⟨rfl, rfl, x, hx, hns⟩
  · exact hf j layer es' hj hes' hown'
  · rw [hns] at hown' ⊢
    obtain ⟨r, ⟨hr, rfl⟩, _⟩ := h.and hw (Pass.Answers.grouping hw hx hown')
    exact hr

theorem Becomes.fresh (h : net.Becomes net') (hw : net.WellFormed) (hb : net.Built)
    (hf : net.Fresh) : net'.Fresh := by
  have ho := (h.wellFormed hw).ordered
  cases h with
  | @learn types hc =>
    intro l layer es hl hes hown
    have hregroups := Regroups.withTypes net types
    have hown' : ∀ n ∈ layer.neurons, net.Owned n := fun n hn => hregroups.symm.owned (hown n hn)
    rw [hregroups.grouping hw.ordered hown']
    exact hf l layer es hl hes hown'
  | addLayer => exact hf.evolve hw hb net.evolves_addLayer ho
  | addNeuron h => exact hf.evolve hw hb (evolves_addNeuron h) ho
  | connect h => exact hf.evolve hw hb (evolves_connect hw h) ho
  | setForward n s => exact hf.evolve hw hb (evolves_setForward hw n s) ho
  | addProperty h => exact hf.evolve hw hb (evolves_addProperty h) ho
  | store h => exact hf.store hw h

/-- What is stored is what grouping finds. -/
def UpToDate (net : Network) : Prop :=
  ∀ (l : LayerId) (layer : Layer) (es : List Ensemble), net.layers[l]? = some layer →
    layer.ensembles = some es → net.grouping l layer.neurons = .ok es

theorem Fresh.upToDate (hf : net.Fresh) (hr : net.Ready) : net.UpToDate :=
  fun l layer es hl hes => hf l layer es hl hes (hr.owned_layer hl)

theorem Ready.ensembles (hr : net.Ready) (hu : net.UpToDate) {l : LayerId} {layer : Layer}
    (hl : net.layers[l]? = some layer) :
    Pass.Answers net (Pass.ensembles l) (· = net.grouping l layer.neurons) := by
  apply (Pass.Returns.layer hl).bind
  split
  · rename_i es hes
    exact Pass.Answers.pure (hu l layer es hl hes).symm
  · exact hr.collect hl

theorem Ready.lowering (hr : net.Ready) (hu : net.UpToDate) :
    Pass.Answers net Pass.lower (· = net.lowering) := by
  apply Pass.Answers.lowering hr.wellFormed hr.built
  intro _ q hq
  exact hr.ensembles hu (getElem?_of_mem_loweredLayers hq)

/-- Lowering does not depend on what is stored. -/
theorem Regroups.lower (h : net.Regroups net') (hr : net.Ready) (hr' : net'.Ready)
    (hu : net.UpToDate) (hu' : net'.UpToDate) :
    ∃ r, Pass.Answers net Pass.lower (· = r) ∧ Pass.Answers net' Pass.lower (· = r) := by
  refine ⟨net.lowering, hr.lowering hu, ?_⟩
  rw [← h.lowering hr hr']
  exact hr'.lowering hu'

end Network

theorem Session.Reachable.fresh {s : Session} (hs : s.Reachable) : s.net.Fresh := by
  have hboth := hs.develops.invariant (P := fun net => net.Built ∧ net.Fresh)
    (fun _ _ hw hstep h => ⟨hstep.built h.1, hstep.fresh hw h.1 h.2⟩) Network.wellFormed_empty
    ⟨Network.built_empty, Network.fresh_empty⟩
  exact hboth.2

namespace Network

variable {net net' : Network}

/-- The grouping of a layer by its number. -/
def groupingAt (net : Network) (l : LayerId) : Except Failure (List Ensemble) :=
  match net.layers[l]? with
  | some layer => net.grouping l layer.neurons
  | none => .ok []

/-- What grouping all layers in order comes to. -/
def groupAll (net : Network) : Except Failure Unit :=
  (List.range net.layers.size).forM fun l => (net.groupingAt l).map fun _ => ()

theorem groupingAt_eq {l : LayerId} {layer : Layer} (hl : net.layers[l]? = some layer) :
    net.groupingAt l = net.grouping l layer.neurons := by
  rw [groupingAt, hl]

theorem Regroups.groupingAt (h : net.Regroups net') (hr : net.Ready) (l : LayerId) :
    net'.groupingAt l = net.groupingAt l := by
  have hplaces := h.layer l
  cases hl : net.layers[l]? with
  | none =>
    rw [hl, Option.map_none, Option.map_eq_none_iff] at hplaces
    simp only [Network.groupingAt, hl, hplaces]
  | some layer =>
    rw [hl, Option.map_some] at hplaces
    obtain ⟨layer', hl', hns⟩ := Option.map_eq_some_iff.1 hplaces
    rw [groupingAt_eq hl, groupingAt_eq hl', hns]
    exact h.grouping hr.wellFormed.ordered (hr.owned_layer hl) l

theorem Regroups.groupAll (h : net.Regroups net') (hr : net.Ready) :
    net'.groupAll = net.groupAll := by
  simp only [Network.groupAll, h.size, h.groupingAt hr]

theorem Ready.develops (hr : net.Ready) (hdevelops : net.Develops net') (h : net.Regroups net') :
    net'.Ready := by
  refine ⟨hdevelops.wellFormed hr.wellFormed, ?_, h.checked hr.checked⟩
  exact hdevelops.invariant (fun _ _ _ hstep hb => hstep.built hb) hr.wellFormed hr.built

end Network

section

variable {s : Session}

theorem groupLayer_outcome (hr : s.net.Ready) {l : LayerId} (hl : l < s.net.layers.size) :
    ∃ s', Pass.groupLayer l s = outcome ((s.net.groupingAt l).map fun _ => ()) s' ∧
      s.net.Regroups s'.net ∧ s'.net.Ready := by
  have hlayer := Array.getElem?_eq_getElem hl
  obtain ⟨r, t, rfl, hrun, types, _, hnet⟩ := (hr.collect hlayer).run hr.wellFormed
  have hlearn : s.net.Regroups t.net := by
    rw [hnet]
    exact .withTypes s.net types
  rw [← Network.groupingAt_eq hlayer] at hrun
  have hdevelops := Pass.Develops.groupLayer l s hr.wellFormed
  cases hgrouping : s.net.groupingAt l with
  | error e =>
    rw [hgrouping] at hrun
    have hstop : Pass.groupLayer l s = .error e t := Pass.bind_of_error hrun
    rw [Pass.after_of_outcome (r := .error e) hstop] at hdevelops
    exact ⟨t, hstop, hlearn, hr.develops hdevelops hlearn⟩
  | ok es =>
    rw [hgrouping] at hrun
    let u : Session := ⟨t.net.store l es, t.log.push (.grouped l es.length)⟩
    have hstore : Pass.groupLayer l s = .ok () u := Pass.bind_of_ok hrun
    have hregroups : s.net.Regroups u.net := hlearn.trans (t.net.regroups_store l es)
    rw [Pass.after_of_outcome (r := .ok ()) hstore] at hdevelops
    exact ⟨u, hstore, hregroups, hr.develops hdevelops hregroups⟩

/-- Grouping one layer does not change what grouping the next comes to. -/
theorem forM_groupLayer_outcome (ls : List LayerId) (hr : s.net.Ready)
    (hls : ∀ l ∈ ls, l < s.net.layers.size) :
    ∃ s', ls.forM Pass.groupLayer s =
        outcome (ls.forM fun l => (s.net.groupingAt l).map fun _ => ()) s' ∧
      s.net.Regroups s'.net ∧ s'.net.Ready := by
  induction ls generalizing s with
  | nil => exact ⟨s, rfl, .refl _, hr⟩
  | cons l ls ih =>
    obtain ⟨t, hrun, hregroups, ht⟩ := groupLayer_outcome hr (hls l List.mem_cons_self)
    change ∃ s', (Pass.groupLayer l >>= fun _ => ls.forM Pass.groupLayer) s = outcome
      (((s.net.groupingAt l).map fun _ => ()) >>= fun _ => ls.forM _) s' ∧ _
    cases hgrouping : s.net.groupingAt l with
    | error e =>
      rw [hgrouping] at hrun
      exact ⟨t, Pass.bind_of_error hrun, hregroups, ht⟩
    | ok es =>
      rw [hgrouping] at hrun
      obtain ⟨u, hrest, hregroups', hu⟩ := ih ht fun j hj => by
        rw [hregroups.size]
        exact hls j (List.mem_cons_of_mem _ hj)
      simp only [hregroups.groupingAt hr] at hrest
      exact ⟨u, (Pass.bind_of_ok hrun).trans hrest, hregroups.trans hregroups', hu⟩

theorem group_outcome (hr : s.net.Ready) : ∃ s', Pass.group s = outcome s.net.groupAll s' ∧
    s.net.Regroups s'.net ∧ s'.net.Ready :=
  forM_groupLayer_outcome _ hr fun _ hl => List.mem_range.1 hl

end

/-- The part of compilation that comes after grouping. -/
def Pass.assemble (o : Options) : Pass Compiled := do
  let net ← sectionOf o.network (return (← network).listing)
  let ensembles ← sectionOf o.ensembles ensembleListing
  let kernel ← lower
  let code ← sectionOf o.kernel (orFail (kernel.run Kernel.listing))
  report (.compiled (← network).layers.size kernel.tables.size)
  return { kernel, listing := net ++ ensembles ++ code }

theorem Pass.compile_eq (o : Options) :
    Pass.compile o = Pass.check >>= fun _ => Pass.group >>= fun _ => Pass.assemble o := rfl

/-- A kernel that was lowered from a network can be listed. -/
theorem Lowered.listing {net : Network} {k : Kernel} (h : Lowered net k) :
    ∃ text, k.run Kernel.listing = .ok text := by
  obtain ⟨cs, hcs, hcomputes⟩ := h.code
  exact Kernel.run_listing_eq_ok h.untyped hcs
    (hcomputes.inScope [Kernel.inputVar] List.mem_cons_self) (Kernel.lt_of_ty h.output)

namespace Pass.Yields

variable {net : Network}

theorem sectionOf (wanted : Bool) {text : Pass String} (h : Yields net text fun _ => True) :
    Yields net (Pass.sectionOf wanted text) fun _ => True := by
  unfold Pass.sectionOf
  split
  · apply h.bind
    intro t _
    exact Answers.pure ⟨_, rfl, trivial⟩
  · exact Answers.pure ⟨_, rfl, trivial⟩

theorem ensembleListing (hr : net.Ready) (hu : net.UpToDate)
    (hgroups : ∀ l < net.layers.size, ∃ es, net.groupingAt l = .ok es) :
    Yields net Pass.ensembleListing fun _ => True := by
  refine Answers.network (fun _ => rfl) ?_
  have hlines : Yields net ((List.range net.layers.size).mapM Pass.ensemblesText)
      fun _ => True := by
    apply mapM
    intro l hl
    have hlt := List.mem_range.1 hl
    obtain ⟨es, hes⟩ := hgroups l hlt
    have hlayer := Array.getElem?_eq_getElem hlt
    have hensembles := hr.ensembles hu hlayer
    rw [← Network.groupingAt_eq hlayer, hes] at hensembles
    exact Returns.bind hensembles (Answers.pure ⟨_, rfl, trivial⟩)
  apply hlines.bind
  intro texts _
  exact Answers.pure ⟨_, rfl, trivial⟩

end Pass.Yields

/-- Once all layers are grouped, compilation ends as lowering does. -/
theorem Pass.Answers.assemble {net : Network} (hr : net.Ready) (hu : net.UpToDate)
    (hgroups : ∀ l < net.layers.size, ∃ es, net.groupingAt l = .ok es) {r : Except Failure Kernel}
    (hlower : Answers net Pass.lower (· = r)) (o : Options) :
    Answers net (Pass.assemble o) fun q => q.map Compiled.kernel = r := by
  have hlisting : Yields net (do return (← Pass.network).listing) fun _ => True :=
    Answers.network (fun _ => rfl) (Answers.pure ⟨_, rfl, trivial⟩)
  apply (Yields.sectionOf o.network hlisting).bind
  intro text _
  apply (Yields.sectionOf o.ensembles (Yields.ensembleListing hr hu hgroups)).bind
  intro text' _
  cases r with
  | error e => exact (bind_error hlower).imp fun q hq => by rw [hq]; rfl
  | ok k =>
    obtain ⟨r, ⟨rfl, hgives⟩, _⟩ := hlower.and hr.wellFormed (Pass.Answers.lower hr.wellFormed)
    obtain ⟨code, hcode⟩ := (hgives k rfl).listing
    have hkernel : Yields net (orFail (k.run Kernel.listing)) fun _ => True := by
      rw [hcode]
      exact pure ⟨code, rfl, trivial⟩
    apply Returns.bind hlower
    apply (Yields.sectionOf o.kernel hkernel).bind
    intro text'' _
    refine network (fun _ => rfl) ?_
    apply (Returns.report _).bind
    exact pure rfl

theorem Network.groupAll_eq_ok {net : Network} : net.groupAll = .ok () ↔
    ∀ l < net.layers.size, ∃ es, net.groupingAt l = .ok es := by
  rw [groupAll, forM_eq_ok]
  simp only [List.mem_range]
  refine forall₂_congr fun l _ => ?_
  cases net.groupingAt l <;> simp [Except.map]

/-- Sessions whose networks differ in stored groupings only, all of them fresh. -/
theorem lower_result_of_regroups {s s' : Session} (h : s.net.Regroups s'.net) (hr : s.net.Ready)
    (hr' : s'.net.Ready) (hu : s.net.UpToDate) (hu' : s'.net.UpToDate) :
    Pass.lower.result s' = Pass.lower.result s := by
  obtain ⟨r, hlower, hlower'⟩ := h.lower hr hr' hu hu'
  rw [hlower.result hr.wellFormed, hlower'.result hr'.wellFormed]

namespace Session.Reachable

variable {s : Session}

theorem after_check (hs : s.Reachable) : (Pass.check.after s).Reachable := .step .check hs

theorem after_group (hs : s.Reachable) : (Pass.group.after s).Reachable := .step .group hs

theorem upToDate (hs : s.Reachable) (hr : s.net.Ready) : s.net.UpToDate := hs.fresh.upToDate hr

theorem group_result (hr : s.net.Ready) : Pass.group.result s = s.net.groupAll := by
  obtain ⟨s', hrun, _⟩ := group_outcome hr
  exact Pass.result_of_outcome hrun

theorem lower_after_group (hs : s.Reachable) (hr : s.net.Ready) :
    Pass.lower.result (Pass.group.after s) = Pass.lower.result s := by
  obtain ⟨s', hrun, hregroups, hr'⟩ := group_outcome hr
  have hs' := hs.after_group
  rw [Pass.after_of_outcome hrun] at hs' ⊢
  exact lower_result_of_regroups hregroups hr hr' (hs.upToDate hr) (hs'.upToDate hr')

/-- Compilation ends as grouping does if that stops, and else as lowering does. -/
theorem compile_result (hs : s.Reachable) (hcheck : Pass.check.result s = .ok ()) (o : Options) :
    ((Pass.compile o).result s).map Compiled.kernel =
      s.net.groupAll >>= fun _ => Pass.lower.result s := by
  have hr := hs.ready hcheck
  obtain ⟨r, s₁, rfl, hrun, types, hc, hnet⟩ := (hs.check_returns hcheck).run hr.wellFormed
  have hs₁ := hs.after_check
  have hlearn : s.net.Regroups s₁.net := by
    rw [hnet]
    exact .withTypes s.net types
  have hr₁ : s₁.net.Ready := by
    apply hr.develops _ hlearn
    rw [hnet]
    exact .single (.learn hc)
  obtain ⟨s₂, hgroup, hregroups, hr₂⟩ := group_outcome hr₁
  rw [Pass.after_of_outcome hrun] at hs₁
  have hs₂ := hs₁.after_group
  rw [Pass.after_of_outcome hgroup] at hs₂
  rw [Pass.compile_eq, Pass.result_bind hrun]
  change ((Pass.group >>= fun _ => Pass.assemble o).result s₁).map Compiled.kernel = _
  rw [Pass.result_bind hgroup, hlearn.groupAll hr]
  cases hall : s.net.groupAll with
  | error e => rfl
  | ok _ =>
    have hboth := hlearn.trans hregroups
    obtain ⟨r, hlower, hlower₂⟩ := hboth.lower hr hr₂ (hs.upToDate hr) (hs₂.upToDate hr₂)
    have hgroups : ∀ l < s₂.net.layers.size, ∃ es, s₂.net.groupingAt l = .ok es := by
      rw [← Network.groupAll_eq_ok, hboth.groupAll hr, hall]
    have hassemble := Pass.Answers.assemble hr₂ (hs₂.upToDate hr₂) hgroups hlower₂ o
    change ((Pass.assemble o).result s₂).map Compiled.kernel = Pass.lower.result s
    rw [hassemble.result hr₂.wellFormed, hlower.result hr.wellFormed]

end Session.Reachable

/-- A network without its stored groupings. -/
def Network.ungrouped (net : Network) : Network :=
  { net with layers := net.layers.map fun x => { x with ensembles := none } }

def Session.ungrouped (s : Session) : Session := { s with net := s.net.ungrouped }

namespace Network

variable {net : Network}

theorem regroups_ungrouped (net : Network) : net.Regroups net.ungrouped :=
  ⟨by simp [ungrouped, Function.comp_def], rfl, rfl⟩

theorem of_mem_ungrouped {l : LayerId} {layer : Layer}
    (hl : net.ungrouped.layers[l]? = some layer) : layer.ensembles = none := by
  rw [ungrouped, Array.getElem?_map] at hl
  obtain ⟨x, _, rfl⟩ := Option.map_eq_some_iff.1 hl
  rfl

theorem Ready.ungrouped (hr : net.Ready) : net.ungrouped.Ready := by
  have hplaces : net.SamePlaces net.ungrouped :=
    ⟨net.regroups_ungrouped.layer, fun _ => rfl⟩
  refine ⟨hr.wellFormed.of_samePlaces hplaces hr.wellFormed.ordered hr.wellFormed.coherent
    hr.wellFormed.sourced ?_, ⟨hr.built.plain, hr.built.rooted, hr.built.inputs⟩,
    net.regroups_ungrouped.checked hr.checked⟩
  intro l layer es hl hes
  rw [of_mem_ungrouped hl] at hes
  cases hes

theorem upToDate_ungrouped (net : Network) : net.ungrouped.UpToDate := by
  intro l layer es hl hes
  rw [of_mem_ungrouped hl] at hes
  cases hes

end Network

/-- In a session that passes the type check, each grouping that is stored is what grouping finds
afresh. Kernels come out the same whether groupings are stored or dropped, after all layers have
been grouped, and from compilation. -/
theorem stored_groupings_fresh {s : Session} (hs : s.Reachable)
    (hcheck : Pass.check.result s = .ok ()) :
    (∀ (l : LayerId) (layer : Layer) (es : List Ensemble), s.net.layers[l]? = some layer →
      layer.ensembles = some es →
      (Pass.ensembles l).result s = .ok es ∧ (Pass.collect l).result s = .ok es) ∧
    Pass.lower.result s.ungrouped = Pass.lower.result s ∧
    Pass.lower.result (Pass.group.after s) = Pass.lower.result s ∧
    (Pass.group.result s = .ok () →
      ∀ o, ((Pass.compile o).result s).map Compiled.kernel = Pass.lower.result s) := by
  have hr := hs.ready hcheck
  have hu := hs.upToDate hr
  refine ⟨fun l layer es hl hes => ?_, ?_, hs.lower_after_group hr, fun hgroup o => ?_⟩
  · have hgrouping := hu l layer es hl hes
    rw [(hr.ensembles hu hl).result hr.wellFormed, (hr.collect hl).result hr.wellFormed, hgrouping]
    exact ⟨rfl, rfl⟩
  · exact lower_result_of_regroups s.net.regroups_ungrouped hr hr.ungrouped hu
      s.net.upToDate_ungrouped
  · rw [Session.Reachable.group_result hr] at hgroup
    rw [hs.compile_result hcheck o, hgroup]
    rfl

/-- A pyramid that was grouped before a neuron in the middle got another expression. -/
def revised : Session :=
  (Request.setForward 3 { above := [.input 3], last := .reduce .product 0 }).run
    (Request.group.run pyramid)

theorem revised_groupings_fresh : revised.Reachable ∧ Pass.check.result revised = .ok () ∧
    (revised.net.layers.toList.map fun x => x.ensembles.isSome) = [true, false, true] ∧
    (Pass.collect 2).result revised = .ok [⟨2, 0, 4, []⟩] ∧
    ∀ o, ((Pass.compile o).result revised).map Compiled.kernel = Pass.lower.result revised := by
  have hs : revised.Reachable := .step _ (.step _ (Session.reachable_ofRequests _))
  have hcheck : Pass.check.result revised = .ok () := by decide +kernel
  have hgroup : Pass.group.result revised = .ok () := by decide +kernel
  have hstored : revised.net.layers[2]? =
      some { neurons := [4], ensembles := some [⟨2, 0, 4, []⟩] } := by decide +kernel
  obtain ⟨hfresh, _, _, hcompile⟩ := stored_groupings_fresh hs hcheck
  exact ⟨hs, hcheck, by decide +kernel, (hfresh 2 _ _ hstored rfl).2, hcompile hgroup⟩

end Synapse
