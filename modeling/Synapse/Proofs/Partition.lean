import Mathlib.Tactic
import Synapse.Proofs.Comparison
import Synapse.Proofs.Merging
import Synapse.Proofs.Sessions

namespace Synapse

namespace Network

variable {net : Network} {x y z : Neuron} {n m k : NeuronId} {c : Bool}

/-- The comparison of two expressions gives the answer `c`. -/
abbrev Compares (net : Network) (v w : NodeId) (c : Bool) : Prop :=
  Typing.Finds ∅ net.arena.nodes net.env (sameShape net.arena.nodes net.env v w) (.ok c)

/-- The comparison of two neurons gives the answer `c`. -/
inductive Judges (net : Network) (x y : Neuron) (c : Bool) : Prop
  | unset (h : x.forward = none ∨ y.forward = none) (hc : c = false)
  | unlike {v w : NodeId} (hv : x.forward = some v) (hw : y.forward = some w)
    (h : net.Compares v w false) (hc : c = false)
  | alike {v w : NodeId} (hv : x.forward = some v) (hw : y.forward = some w)
    (h : net.Compares v w true) (hlen : x.sources.length = y.sources.length)
    (hc : c = (Pass.offsets (net.sourcePositions x) == Pass.offsets (net.sourcePositions y)))

theorem Judges.symm (h : net.Judges x y c) : net.Judges y x c := by
  cases h with
  | unset h hc => exact .unset h.symm hc
  | unlike hv hw h hc => exact .unlike hw hv (finds_sameShape_symm h) hc
  | alike hv hw h hlen hc =>
    exact .alike hw hv (finds_sameShape_symm h) hlen.symm (by rw [hc, BEq.comm])

/-- A neuron can be replaced by one that it can be merged with. -/
theorem Judges.congr (ho : Arena.Ordered net.arena.nodes) (hxy : net.Judges x y true)
    (h : net.Judges z x c) : net.Judges z y c := by
  cases hxy with
  | unset _ hc => cases hc
  | unlike _ _ _ hc => cases hc
  | @alike v w hv hw hvw hlen hc =>
    have hoffsets : Pass.offsets (net.sourcePositions x) =
        Pass.offsets (net.sourcePositions y) := by simpa using hc.symm
    cases h with
    | unset h hc => exact .unset (h.imp_right fun hx => by cases hx.symm.trans hv) hc
    | unlike hz hx h hc =>
      cases hx.symm.trans hv
      exact .unlike hz hw (finds_sameShape_congr ho hvw h) hc
    | alike hz hx h hlen' hc =>
      cases hx.symm.trans hv
      exact .alike hz hw (finds_sameShape_congr ho hvw h) (hlen'.trans hlen) (by rw [hc, hoffsets])

/-- The comparison of two neurons by their numbers gives the answer `c`. -/
def Merges (net : Network) (n m : NeuronId) (c : Bool) : Prop :=
  ∃ x y, net.neurons[n]? = some x ∧ net.neurons[m]? = some y ∧ net.Judges x y c

theorem Merges.symm (h : net.Merges n m c) : net.Merges m n c := by
  obtain ⟨x, y, hx, hy, h⟩ := h
  exact ⟨y, x, hy, hx, h.symm⟩

theorem Merges.congr (ho : Arena.Ordered net.arena.nodes) (hnm : net.Merges n m true)
    (h : net.Merges k n c) : net.Merges k m c := by
  obtain ⟨x, y, hx, hy, hxy⟩ := hnm
  obtain ⟨z, x', hz, hx', hzx⟩ := h
  obtain rfl : x = x' := Option.some.inj (hx.symm.trans hx')
  exact ⟨z, y, hz, hy, hxy.congr ho hzx⟩

/-- Ensembles whose members can be merged with the representative, each of which ends where the next
neuron cannot. -/
structure Maximal (net : Network) (es : List Ensemble) : Prop where
  within : ∀ e ∈ es, ∀ n ∈ e.others, net.Merges n e.representative true
  between : es.IsChain fun e e' => net.Merges e'.representative e.representative false

end Network

namespace Pass

variable {net : Network} {n m : NeuronId} {c : Bool}

theorem Answers.compares (hw : net.WellFormed) (v w : NodeId) :
    Answers net (Pass.sameShape v w) (Gives (net.Compares v w)) := by
  obtain ⟨r, hr, _⟩ := finds_sameShape ∅ net.env hw.ordered v w
  apply typing (fun _ => rfl) hr
  rintro c rfl
  exact hr

theorem Answers.merges (hw : net.WellFormed) (n m : NeuronId) :
    Answers net (Pass.mergeable n m) (Gives (net.Merges n m)) := by
  unfold Pass.mergeable
  refine (neuron n).bindGives fun x hx => (neuron m).bindGives fun y hy => ?_
  split
  · rename_i v w hv hw'
    refine (compares hw v w).bindGives fun same hsame => ?_
    cases same with
    | false =>
      apply pure
      rintro c ⟨⟩
      exact ⟨x, y, hx, hy, .unlike hv hw' hsame rfl⟩
    | true =>
      simp only [if_true]
      split
      · rename_i hlen
        refine (sourcePositions x).bindGives fun p hp => ?_
        refine (sourcePositions y).bindGives fun q hq => ?_
        subst hp hq
        apply pure
        rintro c ⟨⟩
        exact ⟨x, y, hx, hy, .alike hv hw' hsame hlen rfl⟩
      · exact throw (by rintro c ⟨⟩)
  · rename_i hnone
    apply pure
    rintro c ⟨⟩
    refine ⟨x, y, hx, hy, .unset ?_ rfl⟩
    by_contra hsome
    push Not at hsome
    obtain ⟨⟨v, hv⟩, w, hw'⟩ := hsome.imp Option.ne_none_iff_exists'.1 Option.ne_none_iff_exists'.1
    exact hnone v w hv hw'

theorem Returns.merges (hw : net.WellFormed) (h : net.Merges n m c) :
    Returns net (Pass.mergeable n m) c := by
  obtain ⟨x, y, hx, hy, h⟩ := h
  unfold Pass.mergeable
  apply (Returns.neuron hx).bind
  apply (Returns.neuron hy).bind
  cases h with
  | unset h hc =>
    subst hc
    split
    · rename_i hv hw'
      simp [hv, hw'] at h
    · exact pure false
  | unlike hv hw' h hc =>
    subst hc
    rw [hv, hw']
    exact Returns.bind (Answers.typing (fun _ => rfl) h rfl) (pure false)
  | alike hv hw' h hlen hc =>
    subst hc
    rw [hv, hw']
    apply Returns.bind (Answers.typing (fun _ => rfl) h rfl)
    simp only [if_true, hlen]
    exact (Returns.sourcePositions hw hx).bind ((Returns.sourcePositions hw hy).bind (pure _))

theorem mergeable_eq_ok {s : Session} (hw : s.net.WellFormed) :
    (Pass.mergeable n m).result s = .ok c ↔ s.net.Merges n m c :=
  ⟨(Answers.merges hw n m).result hw c, fun h => (Returns.merges hw h).result hw⟩

/-- The runs that are found continue the open run and are as long as they can be. -/
theorem Answers.runs_maximal (hw : net.WellFormed) (rest : List NeuronId) (current : Ensemble)
    (hcurrent : ∀ n ∈ current.others, net.Merges n current.representative true) :
    Answers net (Pass.runs current rest) (Gives fun es =>
      (∃ e es', es = e :: es' ∧ e.representative = current.representative) ∧ net.Maximal es) := by
  induction rest generalizing current with
  | nil =>
    apply pure
    rintro es ⟨⟩
    exact ⟨⟨current, [], rfl, rfl⟩, by simpa using hcurrent, .singleton _⟩
  | cons n rest ih =>
    unfold Pass.runs
    refine (merges hw n current.representative).bindGives fun c hc => ?_
    cases c with
    | true =>
      apply ih
      intro m hm
      rcases List.mem_append.1 hm with hm | hm
      · exact hcurrent m hm
      · rwa [List.mem_singleton.1 hm]
    | false =>
      refine (ih _ (by simp)).bindGives fun es hes => pure ?_
      rintro es' ⟨⟩
      obtain ⟨⟨e, es, rfl, he⟩, hwithin, hbetween⟩ := hes
      refine ⟨⟨current, _, rfl, rfl⟩, List.forall_mem_cons.2 ⟨hcurrent, hwithin⟩, ?_⟩
      exact List.isChain_cons_cons.2 ⟨he ▸ hc, hbetween⟩

theorem Answers.collect_maximal (hw : net.WellFormed) (l : LayerId) :
    Answers net (Pass.collect l) (Gives net.Maximal) := by
  have hsplit : ∀ ns, Answers net (Pass.split l ns) (Gives net.Maximal) := by
    intro ns
    cases ns with
    | nil =>
      apply pure
      rintro es ⟨⟩
      exact ⟨by simp, .nil⟩
    | cons n rest => exact (runs_maximal hw rest _ (by simp)).imp fun r hr es hes => (hr es hes).2
  refine (layer l).bindGives fun x _ => (hsplit x.neurons).bindGives fun es hes => ?_
  refine (forM fun e _ => report _ fun _ _ => trivial).bindGives fun _ _ => pure ?_
  rintro es' ⟨⟩
  exact hes

end Pass

namespace Network

variable {net : Network} {l : LayerId} {p : Nat} {es : List Ensemble} {ns : List NeuronId}

theorem Tiles.flatMap_neurons (h : net.Tiles l p es ns) : es.flatMap Ensemble.neurons = ns := by
  induction h with
  | nil => rfl
  | cons _ _ _ ih => rw [List.flatMap_cons, ih]

/-- An ensemble starts where those before it end. -/
theorem Tiles.start_eq (h : net.Tiles l p es ns) {before after : List Ensemble} {e : Ensemble}
    (hes : es = before ++ e :: after) :
    e.layer = l ∧ e.start = p + (before.map fun d => d.neurons.length).sum := by
  induction h generalizing before with
  | nil => simp at hes
  | @cons d es ns hl _ _ ih =>
    cases before with
    | nil =>
      obtain ⟨rfl, rfl⟩ := List.cons.inj hes
      exact ⟨hl, by simp⟩
    | cons d' before =>
      obtain ⟨rfl, hrest⟩ := List.cons.inj hes
      obtain ⟨hl, hstart⟩ := ih hrest
      refine ⟨hl, ?_⟩
      rw [hstart, Ensemble.stop, List.map_cons, List.sum_cons, Nat.add_assoc]

end Network

/-- The ensembles split the neurons of a layer, in order, into the longest runs of which any two
neurons can be merged. -/
structure Session.Partitions (s : Session) (l : LayerId) (ns : List NeuronId)
    (es : List Ensemble) : Prop where
  covers : es.flatMap Ensemble.neurons = ns
  nonempty : ∀ e ∈ es, e.neurons ≠ []
  placed : ∀ before e after, es = before ++ e :: after →
    e.layer = l ∧ e.start = (before.map fun d => d.neurons.length).sum
  within : ∀ e ∈ es, ∀ n ∈ e.neurons, ∀ m ∈ e.neurons, n ≠ m →
    (Pass.mergeable n m).result s = .ok true
  between : es.IsChain fun e e' => ∀ n ∈ e.neurons, ∀ m ∈ e'.neurons,
    (Pass.mergeable n m).result s = .ok false ∧ (Pass.mergeable m n).result s = .ok false

namespace Network.Maximal

variable {net : Network} {es : List Ensemble} {e e' : Ensemble} {n m : NeuronId}

theorem within_all (h : net.Maximal es) (ho : Arena.Ordered net.arena.nodes) (he : e ∈ es)
    (hn : n ∈ e.neurons) (hm : m ∈ e.neurons) (hne : n ≠ m) : net.Merges n m true := by
  rcases List.mem_cons.1 hn with rfl | hn
  · rcases List.mem_cons.1 hm with rfl | hm
    · exact absurd rfl hne
    · exact (h.within e he m hm).symm
  · rcases List.mem_cons.1 hm with rfl | hm
    · exact h.within e he n hn
    · exact (h.within e he m hm).symm.congr ho (h.within e he n hn)

/-- What cannot be merged with the representative of a run cannot be merged with any member. -/
theorem between_all (h : net.Maximal es) (ho : Arena.Ordered net.arena.nodes) (he : e ∈ es)
    (he' : e' ∈ es) (hee : net.Merges e'.representative e.representative false)
    (hn : n ∈ e.neurons) (hm : m ∈ e'.neurons) : net.Merges n m false := by
  have hrep : net.Merges e'.representative n false := by
    rcases List.mem_cons.1 hn with rfl | hn
    · exact hee
    · exact (h.within e he n hn).symm.congr ho hee
  rcases List.mem_cons.1 hm with rfl | hm
  · exact hrep.symm
  · exact (h.within e' he' m hm).symm.congr ho hrep.symm

end Network.Maximal

/-- Grouping is the partition of a layer into the longest runs of neurons that can be merged, and
being mergeable is an equivalence wherever the question has an answer. -/
theorem grouping_partitions_by_equivalence {s : Session} (hs : s.Reachable) :
    (∀ n m c, (Pass.mergeable n m).result s = .ok c → (Pass.mergeable m n).result s = .ok c) ∧
    (∀ n m k, (Pass.mergeable n m).result s = .ok true → (Pass.mergeable m k).result s = .ok true →
      (Pass.mergeable n k).result s = .ok true) ∧
    ∀ l es, (Pass.collect l).result s = .ok es →
      ∃ layer, s.net.layers[l]? = some layer ∧ s.Partitions l layer.neurons es := by
  have hw := hs.wellFormed
  simp only [Pass.mergeable_eq_ok hw]
  refine ⟨fun n m c h => h.symm, fun n m k h h' => h'.congr hw.ordered h, fun l es hes => ?_⟩
  obtain ⟨layer, hl, htiles⟩ := (Pass.Answers.collect hw l).result hw es hes
  have hmax : s.net.Maximal es := (Pass.Answers.collect_maximal hw l).result hw es hes
  refine ⟨layer, hl, htiles.flatMap_neurons, fun e _ => List.cons_ne_nil _ _, ?_, ?_, ?_⟩
  · intro before e after he
    simpa using htiles.start_eq he
  · intro e he n hn m hm hne
    exact (Pass.mergeable_eq_ok hw).2 (hmax.within_all hw.ordered he hn hm hne)
  · refine hmax.between.imp_of_mem_imp fun e e' he he' hee n hn m hm => ?_
    have hnm := hmax.between_all hw.ordered he he' hee hn hm
    exact ⟨(Pass.mergeable_eq_ok hw).2 hnm, (Pass.mergeable_eq_ok hw).2 hnm.symm⟩

/-- Windows of width two over three inputs, with a neuron between them whose expression reads the
inputs of a neuron that does not exist. -/
def windowed : Session := .ofRequests [
  .addLayer, .addNeuron 0 .input, .addNeuron 0 .input, .addNeuron 0 .input,
  .addLayer, .addNeuron 1 .hidden, .addNeuron 1 .hidden, .addNeuron 1 .hidden, .addNeuron 1 .hidden,
  .connect 0 3, .connect 1 3, .connect 1 4, .connect 2 4, .connect 0 6, .connect 1 6,
  .setForward 3 { above := [.input 3, .unary .minus 0], last := .reduce .product 1 },
  .setForward 4 { above := [.input 4, .unary .minus 0], last := .reduce .product 1 },
  .setForward 5 { above := [.input 7, .unary .minus 0], last := .reduce .max 1 },
  .setForward 6 { above := [.input 6, .unary .minus 0], last := .reduce .product 1 }]

theorem windowed_partition : windowed.Reachable ∧
    Pass.check.result windowed = .error (.error (.type (.foreignInput 1 2))) ∧
    (Pass.collect 1).result windowed = .ok [⟨1, 0, 3, [4]⟩, ⟨1, 2, 5, []⟩, ⟨1, 3, 6, []⟩] ∧
    (Pass.mergeable 3 4).result windowed = .ok true ∧
    (Pass.mergeable 4 5).result windowed = .ok false ∧
    (Pass.mergeable 4 6).result windowed = .ok true := by
  have hs : windowed.Reachable := Session.reachable_ofRequests _
  have hcollect : (Pass.collect 1).result windowed =
      .ok [⟨1, 0, 3, [4]⟩, ⟨1, 2, 5, []⟩, ⟨1, 3, 6, []⟩] := by decide +kernel
  have hmerge : (Pass.mergeable 3 6).result windowed = .ok true := by decide +kernel
  obtain ⟨hsymm, htrans, hgroup⟩ := grouping_partitions_by_equivalence hs
  obtain ⟨layer, _, hparts⟩ := hgroup 1 _ hcollect
  have hwithin : (Pass.mergeable 3 4).result windowed = .ok true :=
    hparts.within _ List.mem_cons_self 3 (by decide) 4 (by decide) (by decide)
  have hbetween := (List.isChain_cons_cons.1 hparts.between).1 4 (by decide) 5 (by decide)
  exact ⟨hs, by decide +kernel, hcollect, hwithin, hbetween.1,
    htrans 4 3 6 (hsymm 3 4 _ hwithin) hmerge⟩

end Synapse
