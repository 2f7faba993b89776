import Mathlib.Tactic
import Synapse.Proofs.Histories
import Synapse.Proofs.Lowering

namespace Synapse

theorem Node.Alike.symm {m n : Node} (h : m.Alike n) : n.Alike m := by
  cases h with
  | vec xs ys h => exact .vec ys xs h.symm
  | _ => constructor

theorem Node.Alike.trans {l m n : Node} (h : l.Alike m) (h' : m.Alike n) : l.Alike n := by
  cases h with
  | vec xs ys h =>
    cases h' with
    | vec _ zs h' => exact .vec xs zs (h.trans h')
  | _ => cases h'; constructor

namespace Likens

variable {nodes nodes' nodes'' : Array Node} {env env' env'' : Env} {a : NodeId}
  {f g : NodeId → NodeId}

/-- A likeness can be read backwards. -/
theorem symm (hf : Likens nodes env nodes' env' ((Arena.dag nodes).Reaches a) f) :
    ∃ g, (∀ x, (Arena.dag nodes).Reaches a x → g (f x) = x) ∧
      Likens nodes' env' nodes env ((Arena.dag nodes').Reaches (f a)) g := by
  obtain ⟨g, hinv, hg⟩ := hf.toRenames.symm
  refine ⟨g, hinv, hg, fun y hy => ?_, fun y i hy hi => ?_⟩
  · obtain ⟨x, hx, rfl⟩ := (hf.toRenames.reaches_image_iff (.refl _ a)).1 hy
    obtain ⟨m, n, hm, hn, hl, hk⟩ := hf.alike x hx
    rw [hinv x hx]
    exact ⟨n, m, hn, hm, hl.symm, hl.readsKernel.trans hk⟩
  · obtain ⟨x, hx, rfl⟩ := (hf.toRenames.reaches_image_iff (.refl _ a)).1 hy
    obtain ⟨m, n, hm, hn, hl, _⟩ := hf.alike x hx
    obtain rfl : n = .input i := Option.some.inj (hn.symm.trans hi)
    rw [hinv x hx]
    cases hl with
    | input j _ => exact (hf.inputs x j hx hm).symm

theorem trans (hf : Likens nodes env nodes' env' ((Arena.dag nodes).Reaches a) f)
    (hg : Likens nodes' env' nodes'' env'' ((Arena.dag nodes').Reaches (f a)) g) :
    Likens nodes env nodes'' env'' ((Arena.dag nodes).Reaches a) (g ∘ f) := by
  refine ⟨hf.toRenames.trans hg.toRenames, fun x hx => ?_, fun x i hx hi => ?_⟩
  · obtain ⟨l, m, hl, hm, hlm, hk⟩ := hf.alike x hx
    obtain ⟨m', n, hm', hn, hmn, _⟩ := hg.alike _ (hf.toRenames.reaches_image hx)
    obtain rfl : m = m' := Option.some.inj (hm.symm.trans hm')
    exact ⟨l, n, hl, hn, hlm.trans hmn, hk⟩
  · obtain ⟨l, m, hl, hm, hlm, _⟩ := hf.alike x hx
    obtain rfl : l = .input i := Option.some.inj (hl.symm.trans hi)
    cases hlm with
    | input _ j =>
      exact (hg.inputs _ j (hf.toRenames.reaches_image hx) hm).trans (hf.inputs x i hx hl)

end Likens

theorem Arena.Extends.get_eq {nodes nodes' : Array Node} (h : Arena.Extends nodes nodes')
    {id : NodeId} (hid : id < nodes.size) : nodes'[id]? = nodes[id]? := by
  rw [Array.getElem?_eq_getElem hid]
  exact h id _ (Array.getElem?_eq_getElem hid)

/-- What matches after nodes have been added matched before, if inputs of one type were so. -/
theorem Matches.restrict {nodes nodes' : Array Node} {env env' : Env} {v : NodeId}
    {f : NodeId → NodeId} (hnodes : Arena.Extends nodes nodes') (hv : v < nodes.size)
    (hfv : f v < nodes.size) (h : Matches ∅ nodes' env' ((Arena.dag nodes').Reaches v) f)
    (hinputs : ∀ x n, (Arena.dag nodes).Reaches v x → nodes[x]? = some (.input n) →
      typeOf nodes env (f x) = typeOf nodes env x) :
    Matches ∅ nodes env ((Arena.dag nodes).Reaches v) f := by
  have hlt : ∀ x, (Arena.dag nodes).Reaches v x → x < nodes.size ∧ f x < nodes.size := by
    intro x hx
    have himage := (h.toRenames.reaches_image_iff (.refl _ v)).2 ⟨x, hnodes.reaches hx, rfl⟩
    exact ⟨hx.le.trans_lt hv, himage.le.trans_lt hfv⟩
  refine ⟨⟨fun x hx y hy => hx.trans (.operand hy), ?_, ?_⟩, ?_⟩
  · intro x hx
    obtain ⟨hx', hfx⟩ := hlt x hx
    change Arena.operandsOf nodes (f x) = (Arena.operandsOf nodes x).map f
    rw [← hnodes.operandsOf (Array.getElem?_eq_getElem hx'),
      ← hnodes.operandsOf (Array.getElem?_eq_getElem hfx)]
    exact h.operands x (hnodes.reaches hx)
  · intro x y hx hy
    exact h.injective x y (hnodes.reaches hx) (hnodes.reaches hy)
  · intro x hx
    obtain ⟨hx', hfx⟩ := hlt x hx
    obtain ⟨m, n, hm, hn, hl, hk⟩ := (h.corresponding x (hnodes.reaches hx)).alike
    rw [hnodes.get_eq hx'] at hm
    rw [hnodes.get_eq hfx] at hn
    exact ⟨⟨m, n, hm, hn, hl, hk⟩, fun i hi => hinputs x i hx hi⟩

namespace Network

/-- A neuron that is there, with an expression, if it has one, that reads its own inputs only. -/
def Owned (net : Network) (n : NeuronId) : Prop :=
  ∃ x, net.neurons[n]? = some x ∧ ∀ root, x.forward = some root →
    root < net.arena.nodes.size ∧ ReadsOwn net.arena.nodes n root

/-- Whether the expressions of two neurons are of one shape. -/
def oneShape (net : Network) (n m : NeuronId) : Bool :=
  match net.forward? n, net.forward? m with
  | some v, some w =>
    match Synapse.sameShape net.arena.nodes net.env v w ∅ with
    | .ok same _ => same
    | .error _ _ => false
  | _, _ => false

/-- Neurons of one shape with different numbers of sources. -/
def Clash (net : Network) (n m : NeuronId) : Prop :=
  net.oneShape n m = true ∧ (net.sourcesOf n).length ≠ (net.sourcesOf m).length

instance (net : Network) (n m : NeuronId) : Decidable (net.Clash n m) :=
  inferInstanceAs (Decidable (_ ∧ _))

/-- Whether one loop body can compute both neurons. -/
def merging (net : Network) (n m : NeuronId) : Except Failure Bool :=
  if net.Clash n m then
    .error (.defect (.arity n m (net.sourcesOf n).length (net.sourcesOf m).length))
  else .ok (net.oneShape n m && Pass.offsets (net.sourcesOf n) == Pass.offsets (net.sourcesOf m))

/-- The runs of a layer, given the run that is open and the neurons that are left. -/
def runs (net : Network) (current : Ensemble) : List NeuronId → Except Failure (List Ensemble)
  | [] => .ok [current]
  | n :: rest => do
    if ← net.merging n current.representative then
      net.runs { current with others := current.others ++ [n] } rest
    else
      let es ← net.runs ⟨current.layer, current.stop, n, []⟩ rest
      .ok (current :: es)

/-- The ensembles of some neurons of a layer. -/
def grouping (net : Network) (l : LayerId) : List NeuronId → Except Failure (List Ensemble)
  | [] => .ok []
  | n :: rest => net.runs ⟨l, 0, n, []⟩ rest

variable {net : Network} {n m k : NeuronId}

theorem sourcesOf_eq {x : Neuron} (hx : net.neurons[n]? = some x) :
    net.sourcesOf n = net.sourcePositions x := by
  rw [sourcesOf, hx]

theorem length_sourcesOf {x : Neuron} (hx : net.neurons[n]? = some x) :
    (net.sourcesOf n).length = x.sources.length := by
  rw [sourcesOf_eq hx, sourcePositions, List.length_map]

theorem Owned.reads (h : net.Owned n) {root : NodeId} (hroot : net.forward? n = some root) :
    root < net.arena.nodes.size ∧ ReadsOwn net.arena.nodes n root := by
  obtain ⟨x, hx, hforward⟩ := h
  exact hforward root (by simpa [forward?, hx] using hroot)

theorem Owned.resolved (ho : Arena.Ordered net.arena.nodes) (h : net.Owned n) {root : NodeId}
    (hroot : net.forward? n = some root) : Resolved ∅ net.arena.nodes net.env root := by
  obtain ⟨hlt, hown⟩ := h.reads hroot
  obtain ⟨x, hx, _⟩ := h
  apply resolved_of_inputs ho hlt
  intro y i hy hi
  obtain rfl : i = n := hown y i hy hi
  exact ⟨x.inputTy, env_input hx⟩

theorem finds_oneShape (ho : Arena.Ordered net.arena.nodes) (hn : net.Owned n) (hm : net.Owned m)
    {v w : NodeId} (hv : net.forward? n = some v) (hw : net.forward? m = some w) :
    Typing.Finds ∅ net.arena.nodes net.env (sameShape net.arena.nodes net.env v w)
        (.ok (net.oneShape n m)) ∧
      (net.oneShape n m = true ↔
        ∃ f, f v = w ∧ Matches ∅ net.arena.nodes net.env ((Arena.dag net.arena.nodes).Reaches v) f)
    := by
  obtain ⟨r, hr, hsound, hanswers, hcomplete⟩ := finds_sameShape ∅ net.env ho v w
  obtain ⟨same, rfl⟩ := hanswers (hn.resolved ho hv) (hm.resolved ho hw)
  have hsame : net.oneShape n m = same := by
    obtain ⟨types, _, hrun⟩ := hr ∅ (coherent_self ∅ _ _)
    simp only [oneShape, hv, hw, hrun, outcome]
  rw [hsame]
  refine ⟨hr, fun h => hsound (by rw [h]), ?_⟩
  rintro ⟨f, hf, hmatch⟩
  by_contra hne
  exact hcomplete (by simpa using hne) f hf hmatch

theorem forward?_of_oneShape (h : net.oneShape n m = true) :
    ∃ v w, net.forward? n = some v ∧ net.forward? m = some w := by
  unfold oneShape at h
  split at h
  · exact ⟨_, _, ‹_›, ‹_›⟩
  · cases h

theorem oneShape_iff (ho : Arena.Ordered net.arena.nodes) (hn : net.Owned n) (hm : net.Owned m) :
    net.oneShape n m = true ↔ ∃ v w f, net.forward? n = some v ∧ net.forward? m = some w ∧
      f v = w ∧ Matches ∅ net.arena.nodes net.env ((Arena.dag net.arena.nodes).Reaches v) f := by
  constructor
  · intro h
    obtain ⟨v, w, hv, hw⟩ := forward?_of_oneShape h
    obtain ⟨f, hf, hmatch⟩ := (finds_oneShape ho hn hm hv hw).2.1 h
    exact ⟨v, w, f, hv, hw, hf, hmatch⟩
  · rintro ⟨v, w, f, hv, hw, hf, hmatch⟩
    exact (finds_oneShape ho hn hm hv hw).2.2 ⟨f, hf, hmatch⟩

theorem oneShape_symm (ho : Arena.Ordered net.arena.nodes) (hn : net.Owned n) (hm : net.Owned m)
    (h : net.oneShape n m = true) : net.oneShape m n = true := by
  obtain ⟨v, w, f, hv, hw, rfl, hmatch⟩ := (oneShape_iff ho hn hm).1 h
  obtain ⟨g, hg, hback⟩ := (matches_iff_likens.1 hmatch).symm
  exact (oneShape_iff ho hm hn).2
    ⟨f v, v, g, hw, hv, hg v (.refl _ v), matches_iff_likens.2 hback⟩

theorem oneShape_trans (ho : Arena.Ordered net.arena.nodes) (hn : net.Owned n) (hm : net.Owned m)
    (hk : net.Owned k) (h : net.oneShape n m = true) (h' : net.oneShape m k = true) :
    net.oneShape n k = true := by
  obtain ⟨v, w, f, hv, hw, rfl, hf⟩ := (oneShape_iff ho hn hm).1 h
  obtain ⟨w', u, g, hw', hu, rfl, hg⟩ := (oneShape_iff ho hm hk).1 h'
  obtain rfl : f v = w' := Option.some.inj (hw.symm.trans hw')
  have htrans := (matches_iff_likens.1 hf).trans (matches_iff_likens.1 hg)
  exact (oneShape_iff ho hn hk).2 ⟨v, g (f v), g ∘ f, hv, hu, rfl, matches_iff_likens.2 htrans⟩

theorem Clash.symm (ho : Arena.Ordered net.arena.nodes) (hn : net.Owned n) (hm : net.Owned m)
    (h : net.Clash n m) : net.Clash m n :=
  ⟨oneShape_symm ho hn hm h.1, h.2.symm⟩

end Network

namespace Pass

variable {net : Network} {n m : NeuronId}

theorem Returns.sourcePositions (hw : net.WellFormed) {x : Neuron}
    (hx : net.neurons[n]? = some x) :
    Returns net (Pass.sourcePositions x) (net.sourcePositions x) := by
  apply map
  intro s hs
  obtain ⟨y, hy⟩ := hw.sourced n x hx s hs
  have hposition : net.positionOf s = y.position := by rw [Network.positionOf, hy]
  rw [hposition]
  exact (Returns.neuron hy).bind (pure _)

theorem Returns.oneShape (hw : net.WellFormed) (hn : net.Owned n) (hm : net.Owned m) {v w : NodeId}
    (hv : net.forward? n = some v) (hw' : net.forward? m = some w) :
    Returns net (Pass.sameShape v w) (net.oneShape n m) :=
  Answers.typing (fun _ => rfl) (Network.finds_oneShape hw.ordered hn hm hv hw').1 rfl

/-- What the comparison of two neurons comes to. -/
theorem Answers.merging (hw : net.WellFormed) (hn : net.Owned n) (hm : net.Owned m) :
    Answers net (Pass.mergeable n m) (· = net.merging n m) := by
  obtain ⟨x, hx, _⟩ := hn
  obtain ⟨y, hy, _⟩ := hm
  have hnv : net.forward? n = x.forward := by simp [Network.forward?, hx]
  have hmw : net.forward? m = y.forward := by simp [Network.forward?, hy]
  have hnl := Network.length_sourcesOf hx
  have hml := Network.length_sourcesOf hy
  unfold Pass.mergeable
  apply (Returns.neuron hx).bind
  apply (Returns.neuron hy).bind
  split
  · rename_i v w hv hw'
    apply (Returns.oneShape hw ⟨x, hx, ‹_›⟩ ⟨y, hy, ‹_›⟩ (hnv.trans hv) (hmw.trans hw')).bind
    cases hshape : net.oneShape n m with
    | false =>
      apply Answers.pure
      simp [Network.merging, Network.Clash, hshape]
    | true =>
      simp only [if_true]
      split
      · rename_i hlen
        apply (Returns.sourcePositions hw hx).bind
        apply (Returns.sourcePositions hw hy).bind
        apply Answers.pure
        rw [← Network.sourcesOf_eq hx, ← Network.sourcesOf_eq hy]
        simp [Network.merging, Network.Clash, hshape, hnl, hml, hlen]
      · rename_i hlen
        apply Answers.throw
        simp [Network.merging, Network.Clash, hshape, hnl, hml, hlen]
  · rename_i hnone
    apply Answers.pure
    have hshape : net.oneShape n m = false := by
      by_contra hne
      obtain ⟨v, w, hv, hw'⟩ := Network.forward?_of_oneShape (by simpa using hne)
      exact hnone v w (hnv.symm.trans hv) (hmw.symm.trans hw')
    simp [Network.merging, Network.Clash, hshape]

/-- The runs found are those of the pure rule. -/
theorem Answers.runsOf (hw : net.WellFormed) (rest : List NeuronId) (current : Ensemble)
    (hcurrent : net.Owned current.representative) (hrest : ∀ n ∈ rest, net.Owned n) :
    Answers net (Pass.runs current rest) (· = net.runs current rest) := by
  induction rest generalizing current with
  | nil => exact pure rfl
  | cons n rest ih =>
    have hn : net.Owned n := hrest n List.mem_cons_self
    have hbelow : ∀ m ∈ rest, net.Owned m := fun m hm => hrest m (List.mem_cons_of_mem _ hm)
    unfold Pass.runs Network.runs
    apply (Answers.merging hw hn hcurrent).bind
    · intro c hc
      rw [← hc]
      cases c with
      | true => exact ih _ hcurrent hbelow
      | false =>
        apply (ih _ hn hbelow).bind
        · intro es hes
          apply pure
          simp only [← hes]
          rfl
        · intro e he
          simp only [← he]
          rfl
    · intro e he
      rw [← he]
      rfl

/-- What grouping a layer comes to. -/
theorem Answers.grouping (hw : net.WellFormed) {l : LayerId} {layer : Layer}
    (hl : net.layers[l]? = some layer) (hown : ∀ n ∈ layer.neurons, net.Owned n) :
    Answers net (Pass.collect l) (· = net.grouping l layer.neurons) := by
  have hsplit : Answers net (Pass.split l layer.neurons) (· = net.grouping l layer.neurons) := by
    cases hns : layer.neurons with
    | nil => exact pure rfl
    | cons n rest =>
      rw [hns] at hown
      exact runsOf hw rest _ (hown n List.mem_cons_self) fun m hm =>
        hown m (List.mem_cons_of_mem _ hm)
  apply (Returns.layer hl).bind
  apply hsplit.bind
  · intro es hes
    apply (Returns.forM fun e _ => Returns.report _).bind
    exact pure hes
  · intro e he
    exact he

end Pass

namespace Network

variable {net : Network}

/-- The last neuron of a run is the representative, or fits it. -/
def Fits (net : Network) (n m : NeuronId) : Prop :=
  n = m ∨ net.oneShape n m = true ∧ (net.sourcesOf n).length = (net.sourcesOf m).length

theorem Fits.clash_iff (ho : Arena.Ordered net.arena.nodes) {n m k : NeuronId} (hn : net.Owned n)
    (hm : net.Owned m) (hk : net.Owned k) (h : net.Fits n m) : net.Clash k m ↔ net.Clash n k := by
  rcases h with rfl | ⟨hshape, hlen⟩
  · exact ⟨Clash.symm ho hk hn, Clash.symm ho hn hk⟩
  · constructor
    · intro hclash
      refine ⟨oneShape_trans ho hn hm hk hshape (oneShape_symm ho hk hm hclash.1), ?_⟩
      rw [hlen]
      exact hclash.2.symm
    · intro hclash
      refine ⟨oneShape_trans ho hk hn hm (oneShape_symm ho hn hk hclash.1) hshape, ?_⟩
      rw [← hlen]
      exact hclash.2.symm

/-- Neurons can be split into runs exactly if no two of them that stand side by side clash. The
first of those that are left is compared with the representative of the run before it. -/
theorem runs_eq_ok (ho : Arena.Ordered net.arena.nodes) (rest : List NeuronId) (last : NeuronId)
    (current : Ensemble) (hlast : net.Owned last) (hcurrent : net.Owned current.representative)
    (hrest : ∀ n ∈ rest, net.Owned n) (hfits : net.Fits last current.representative) :
    (∃ es, net.runs current rest = .ok es) ↔
      (last :: rest).IsChain fun n m => ¬ net.Clash n m := by
  induction rest generalizing last current with
  | nil => simp [runs]
  | cons n rest ih =>
    have hn : net.Owned n := hrest n List.mem_cons_self
    have hbelow : ∀ m ∈ rest, net.Owned m := fun m hm => hrest m (List.mem_cons_of_mem _ hm)
    have hclash := hfits.clash_iff ho hlast hcurrent hn
    rw [List.isChain_cons_cons, ← hclash, runs, merging]
    split
    · rename_i hstop
      simp [hstop, bind, Except.bind]
    · rename_i hfree
      cases hmerge : (net.oneShape n current.representative &&
        Pass.offsets (net.sourcesOf n) == Pass.offsets (net.sourcesOf current.representative)) with
      | true =>
        have hshape := (Bool.and_eq_true_iff.1 hmerge).1
        have hlen : (net.sourcesOf n).length = (net.sourcesOf current.representative).length := by
          by_contra hne
          exact hfree ⟨hshape, hne⟩
        have hnext := ih n { current with others := current.others ++ [n] } hn hcurrent hbelow
          (.inr ⟨hshape, hlen⟩)
        simpa [hfree, bind, Except.bind] using hnext
      | false =>
        have hnext := ih n ⟨current.layer, current.stop, n, []⟩ hn hn hbelow (.inl rfl)
        rw [← hnext]
        simp only [bind, Except.bind, Bool.false_eq_true, if_false, hfree, not_false_eq_true,
          true_and]
        cases net.runs ⟨current.layer, current.stop, n, []⟩ rest <;> simp

theorem grouping_eq_ok (ho : Arena.Ordered net.arena.nodes) (l : LayerId) {ns : List NeuronId}
    (hown : ∀ n ∈ ns, net.Owned n) :
    (∃ es, net.grouping l ns = .ok es) ↔ ns.IsChain fun n m => ¬ net.Clash n m := by
  cases ns with
  | nil => simp [grouping]
  | cons n rest =>
    have hn : net.Owned n := hown n List.mem_cons_self
    exact runs_eq_ok ho rest n _ hn hn (fun m hm => hown m (List.mem_cons_of_mem _ hm)) (.inl rfl)

theorem runs_of_merging {current : Ensemble} {rest : List NeuronId}
    (h : ∀ n ∈ rest, net.merging n current.representative = .ok true) :
    net.runs current rest = .ok [{ current with others := current.others ++ rest }] := by
  induction rest generalizing current with
  | nil => simp [runs]
  | cons n rest ih =>
    rw [runs, h n List.mem_cons_self]
    have hrest : net.runs { current with others := current.others ++ [n] } rest =
        .ok [{ current with others := current.others ++ [n] ++ rest }] :=
      ih fun m hm => h m (List.mem_cons_of_mem _ hm)
    simpa [bind, Except.bind] using hrest

/-- Neurons that all merge with the first of them form one ensemble. -/
theorem grouping_of_merging {l : LayerId} {rest : List NeuronId}
    (h : ∀ m ∈ rest, net.merging m n = .ok true) :
    net.grouping l (n :: rest) = .ok [⟨l, 0, n, rest⟩] :=
  runs_of_merging h

/-- Grouping stops at nothing but a clash. -/
theorem runs_eq_error {current : Ensemble} {rest : List NeuronId} {e : Failure}
    (h : net.runs current rest = .error e) : ∃ n m, net.Clash n m ∧
      e = .defect (.arity n m (net.sourcesOf n).length (net.sourcesOf m).length) := by
  induction rest generalizing current with
  | nil => cases h
  | cons n rest ih =>
    rw [runs, merging] at h
    split at h
    · exact ⟨n, current.representative, ‹_›, (Except.error.inj h).symm⟩
    · simp only [bind, Except.bind] at h
      split at h
      · exact ih h
      · split at h
        · rename_i hbelow
          obtain rfl := Except.error.inj h
          exact ih hbelow
        · cases h

theorem grouping_eq_error {l : LayerId} {ns : List NeuronId} {e : Failure}
    (h : net.grouping l ns = .error e) : ∃ n m, net.Clash n m ∧
      e = .defect (.arity n m (net.sourcesOf n).length (net.sourcesOf m).length) := by
  cases ns with
  | nil => cases h
  | cons n rest => exact runs_eq_error h

/-- Some neurons of a network keep their sources and expressions in another one, which may have
further nodes. -/
structure Retains (net net' : Network) (ns : List NeuronId) : Prop where
  nodes : Arena.Extends net.arena.nodes net'.arena.nodes
  neurons : ∀ n ∈ ns, ∃ x y, net.neurons[n]? = some x ∧ net'.neurons[n]? = some y ∧
    y.forward = x.forward ∧ y.inputTy = x.inputTy
  sources : ∀ n ∈ ns, net'.sourcesOf n = net.sourcesOf n

namespace Retains

variable {net' : Network} {ns : List NeuronId} {n m : NeuronId}

theorem forward? (h : net.Retains net' ns) (hn : n ∈ ns) : net'.forward? n = net.forward? n := by
  obtain ⟨x, y, hx, hy, hforward, _⟩ := h.neurons n hn
  simp [Network.forward?, hx, hy, hforward]

theorem owned (h : net.Retains net' ns) (hn : n ∈ ns) (hown : net.Owned n) : net'.Owned n := by
  obtain ⟨x, y, hx, hy, hforward, _⟩ := h.neurons n hn
  obtain ⟨x', hx', hreads⟩ := hown
  obtain rfl : x = x' := Option.some.inj (hx.symm.trans hx')
  refine ⟨y, hy, fun root hroot => ?_⟩
  obtain ⟨hlt, hown⟩ := hreads root (hforward ▸ hroot)
  refine ⟨Nat.lt_of_lt_of_le hlt h.nodes.size_le, fun i k hi hk => ?_⟩
  rw [h.nodes.reaches_iff hlt] at hi
  rw [h.nodes.get_eq (hi.le.trans_lt hlt)] at hk
  exact hown i k hi hk

theorem owned_of_rooted (h : net.Retains net' ns) (hn : n ∈ ns)
    (hrooted : ∀ x, net.neurons[n]? = some x → ∀ root, x.forward = some root →
      root < net.arena.nodes.size) (hown : net'.Owned n) : net.Owned n := by
  obtain ⟨x, y, hx, hy, hforward, _⟩ := h.neurons n hn
  obtain ⟨y', hy', hreads⟩ := hown
  obtain rfl : y = y' := Option.some.inj (hy.symm.trans hy')
  refine ⟨x, hx, fun root hroot => ⟨hrooted x hx root hroot, fun i k hi hk => ?_⟩⟩
  exact (hreads root (hforward.trans hroot)).2 i k (h.nodes.reaches hi) (h.nodes i _ hk)

theorem matches_iff (h : net.Retains net' ns) (ho : Arena.Ordered net.arena.nodes)
    (ho' : Arena.Ordered net'.arena.nodes) (hn : n ∈ ns) (hm : m ∈ ns) (hown : net.Owned n)
    (hown' : net.Owned m) {v : NodeId} {f : NodeId → NodeId} (hv : net.forward? n = some v)
    (hw : net.forward? m = some (f v)) :
    Matches ∅ net'.arena.nodes net'.env ((Arena.dag net'.arena.nodes).Reaches v) f ↔
      Matches ∅ net.arena.nodes net.env ((Arena.dag net.arena.nodes).Reaches v) f := by
  obtain ⟨x, x', hx, hx', _, hxty⟩ := h.neurons n hn
  obtain ⟨y, y', hy, hy', _, hyty⟩ := h.neurons m hm
  obtain ⟨hvlt, hvown⟩ := hown.reads hv
  obtain ⟨hwlt, hwown⟩ := hown'.reads hw
  obtain ⟨_, hvown'⟩ := (h.owned hn hown).reads ((h.forward? hn).trans hv)
  obtain ⟨_, hwown'⟩ := (h.owned hm hown').reads ((h.forward? hm).trans hw)
  constructor
  · intro hf
    apply hf.restrict h.nodes hvlt hwlt
    intro i k hi hk
    obtain ⟨rfl, hfi, hty⟩ := hf.inputTy_eq ho' hx' hy' hvown' hwown' (h.nodes.reaches hi)
      (h.nodes i _ hk)
    have hflt : f i < net.arena.nodes.size := by
      have himage := (hf.toRenames.reaches_image_iff (.refl _ v)).2 ⟨i, h.nodes.reaches hi, rfl⟩
      exact himage.le.trans_lt hwlt
    rw [h.nodes.get_eq hflt] at hfi
    rw [typeOf_input ho hfi hy, typeOf_input ho hk hx, ← hxty, ← hyty, hty]
  · intro hf
    apply hf.extend h.nodes
    intro i k hi hk
    obtain ⟨rfl, hfi, hty⟩ := hf.inputTy_eq ho hx hy hvown hwown hi hk
    rw [typeOf_input ho' (h.nodes _ _ hfi) hy', typeOf_input ho' (h.nodes _ _ hk) hx', hxty, hyty,
      hty]

theorem oneShape (h : net.Retains net' ns) (ho : Arena.Ordered net.arena.nodes)
    (ho' : Arena.Ordered net'.arena.nodes) (hn : n ∈ ns) (hm : m ∈ ns) (hown : net.Owned n)
    (hown' : net.Owned m) : net'.oneShape n m = net.oneShape n m := by
  rw [Bool.eq_iff_iff, oneShape_iff ho' (h.owned hn hown) (h.owned hm hown'),
    oneShape_iff ho hown hown', h.forward? hn, h.forward? hm]
  constructor
  · rintro ⟨v, w, f, hv, hw, rfl, hf⟩
    exact ⟨v, f v, f, hv, hw, rfl, (h.matches_iff ho ho' hn hm hown hown' hv hw).1 hf⟩
  · rintro ⟨v, w, f, hv, hw, rfl, hf⟩
    exact ⟨v, f v, f, hv, hw, rfl, (h.matches_iff ho ho' hn hm hown hown' hv hw).2 hf⟩

theorem merging (h : net.Retains net' ns) (ho : Arena.Ordered net.arena.nodes)
    (ho' : Arena.Ordered net'.arena.nodes) (hn : n ∈ ns) (hm : m ∈ ns) (hown : net.Owned n)
    (hown' : net.Owned m) : net'.merging n m = net.merging n m := by
  have hshape := h.oneShape ho ho' hn hm hown hown'
  have hclash : net'.Clash n m ↔ net.Clash n m := by
    rw [Network.Clash, Network.Clash, hshape, h.sources n hn, h.sources m hm]
  simp only [Network.merging, hclash, hshape, h.sources n hn, h.sources m hm]

theorem runs (h : net.Retains net' ns) (ho : Arena.Ordered net.arena.nodes)
    (ho' : Arena.Ordered net'.arena.nodes) (hown : ∀ n ∈ ns, net.Owned n) (current : Ensemble)
    {rest : List NeuronId} (hcurrent : current.representative ∈ ns) (hrest : ∀ n ∈ rest, n ∈ ns) :
    net'.runs current rest = net.runs current rest := by
  induction rest generalizing current with
  | nil => rfl
  | cons n rest ih =>
    have hn : n ∈ ns := hrest n List.mem_cons_self
    have hbelow : ∀ m ∈ rest, m ∈ ns := fun m hm => hrest m (List.mem_cons_of_mem _ hm)
    have hmerging := h.merging ho ho' hn hcurrent (hown n hn) (hown _ hcurrent)
    rw [Network.runs, Network.runs, hmerging,
      ih { current with others := current.others ++ [n] } hcurrent hbelow,
      ih ⟨current.layer, current.stop, n, []⟩ hn hbelow]

/-- Neurons that are kept as they are are grouped as before. -/
theorem grouping (h : net.Retains net' ns) (ho : Arena.Ordered net.arena.nodes)
    (ho' : Arena.Ordered net'.arena.nodes) (hown : ∀ n ∈ ns, net.Owned n) (l : LayerId) :
    net'.grouping l ns = net.grouping l ns := by
  cases ns with
  | nil => rfl
  | cons n rest =>
    exact h.runs ho ho' hown _ List.mem_cons_self fun m hm => List.mem_cons_of_mem _ hm

end Retains

/-- What holds of a network that callers have built and that passes the type check. -/
structure Ready (net : Network) : Prop where
  wellFormed : net.WellFormed
  built : net.Built
  checked : net.Checked

theorem Ready.owned (h : net.Ready) {n : NeuronId} {x : Neuron} (hx : net.neurons[n]? = some x) :
    net.Owned n := by
  refine ⟨x, hx, fun root hroot => ⟨h.built.rooted n x hx root hroot, ?_⟩⟩
  exact (h.checked n root (by simp [forward?, hx, hroot])).1

theorem Ready.owned_layer (h : net.Ready) {l : LayerId} {layer : Layer}
    (hl : net.layers[l]? = some layer) : ∀ n ∈ layer.neurons, net.Owned n := by
  intro n hn
  obtain ⟨x, hx, _⟩ := h.wellFormed.neuron_of_mem hl hn
  exact h.owned hx

/-- In a network that passes the type check grouping comes to what the pure rule says. -/
theorem Ready.collect (h : net.Ready) {l : LayerId} {layer : Layer}
    (hl : net.layers[l]? = some layer) :
    Pass.Answers net (Pass.collect l) (· = net.grouping l layer.neurons) :=
  Pass.Answers.grouping h.wellFormed hl (h.owned_layer hl)

end Network

end Synapse
