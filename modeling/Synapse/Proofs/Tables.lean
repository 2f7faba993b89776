import Mathlib.Tactic
import Synapse.Proofs.Invariance

namespace Synapse

/-- The literal nodes of an expression, each once, in the order in which a walk from the root meets
them. -/
structure Arena.LiteralNodes (nodes : Array Node) (root : NodeId) (ids : List NodeId) : Prop where
  inOrder : ids.Sublist ((dag nodes).preorder root)
  nodup : ids.Nodup
  mem_iff : ∀ id, id ∈ ids ↔ (dag nodes).Reaches root id ∧ ∃ c, nodes[id]? = some (.literal c)

theorem literalNodes_literalIds (nodes : Array Node) (root : NodeId) :
    Arena.LiteralNodes nodes root (literalIds nodes root) := by
  have hliteral : ∀ id : NodeId, (nodes[id]?.bind Node.literal?).isSome = true ↔
      ∃ c, nodes[id]? = some (.literal c) := by
    intro id
    cases nodes[id]? with
    | none => simp
    | some n => cases n <;> simp [Node.literal?]
  rw [literalIds_eq]
  refine ⟨List.filter_sublist, (Dag.nodup_preorder _ root).filter _, ?_⟩
  intro id
  rw [List.mem_filter, Dag.mem_preorder, hliteral]

theorem Table.get?_isSome (t : Table) (i : Nat) :
    (t.get? i).isSome ↔ t.first ≤ i ∧ i < t.first + t.entries.length := by
  unfold get?
  by_cases hi : t.first ≤ i
  · simp only [hi, if_true, isSome_getElem?, true_and]
    omega
  · simp [hi]

namespace Network

variable {net : Network}

/-- Whether an expression reads a vector of inputs that is not empty. -/
def ReadsVector (net : Network) (root : NodeId) : Prop :=
  ∃ (id : NodeId) (n : NeuronId) (s : Scalar) (len : Nat),
    (Arena.dag net.arena.nodes).Reaches root id ∧ net.arena.nodes[id]? = some (.input n) ∧
      typeOf net.arena.nodes net.env id = .ok (.vector s (some len)) ∧ 0 < len

/-- Whether the first sources of the members stand in an arithmetic progression. -/
def InProgression (net : Network) (e : Ensemble) : Prop :=
  ∃ first stride : Int, ∀ (k : Nat) (n : NeuronId), e.neurons[k]? = some n →
    ∃ p, (net.sourcesOf n).head? = some p ∧ (p : Int) = first + stride * k

/-- The tables of an ensemble: some for literals, and at most one for first sources. -/
structure Tabled (net : Network) (e : Ensemble) (literals bases : List Table) : Prop where
  /-- Each member has as many literal nodes as there are tables for literals. The literal of rank
  `j` of member `k` is entry `k` of table `j` and has the type of that table. -/
  aligned : ∀ (k : Nat) (n : NeuronId), e.neurons[k]? = some n → ∃ root ids,
    net.forward? n = some root ∧ Arena.LiteralNodes net.arena.nodes root ids ∧
      List.Forall₂ (fun id t => ∃ c, net.arena.nodes[id]? = some (.literal c) ∧
        t.entries[k]? = some c ∧ c.ty = t.elem) ids literals
  /-- Each table has one entry for each member, and a loop finds it by the member's position. -/
  extent : ∀ t ∈ literals ++ bases, t.first = e.start ∧ t.entries.length = e.neurons.length ∧
    ∀ i, (t.get? i).isSome ↔ e.start ≤ i ∧ i < e.stop
  one : bases.length ≤ 1
  /-- There is a table for first sources exactly if it is needed. -/
  needed : bases ≠ [] ↔ ∃ root, net.forward? e.representative = some root ∧
    net.ReadsVector root ∧ ¬ net.InProgression e
  based : ∀ t ∈ bases, t.elem = .int ∧ ∀ (k : Nat) (n : NeuronId), e.neurons[k]? = some n →
    ∃ p : Nat, (net.sourcesOf n).head? = some p ∧ t.entries[k]? = some (.int p)

end Network

theorem Extent.len_pos_iff {x : Extent} : x.len ≠ 0 ↔ ∃ s n, x.ty = .vector s (some n) ∧ 0 < n := by
  cases x with
  | scalar s => simp [len, ty]
  | vector s n => simp [len, ty, Nat.pos_iff_ne_zero]

theorem RecipeOf.readsVector_iff {net : Network} {root : NodeId} {r : Recipe}
    (h : RecipeOf net root r) : r.readsVector = true ↔ net.ReadsVector root := by
  simp only [Recipe.readsVector, List.any_eq_true, Bool.and_eq_true, beq_iff_eq, bne_iff_ne,
    Extent.len_pos_iff]
  constructor
  · rintro ⟨l, hl, hstep, s, len, hty, hpos⟩
    obtain ⟨i, hi⟩ := List.mem_iff_getElem?.1 hl
    obtain ⟨id, hid, ⟨m, hm, hline⟩, htype⟩ := forall₂_getElem? h.flip hi
    rw [hstep] at hline
    obtain ⟨n, rfl⟩ := Node.step?_eq_input.1 hline
    exact ⟨id, n, s, len, Dag.mem_postorder.1 (List.mem_of_getElem? hid), hm, by rw [htype, hty],
      hpos⟩
  · rintro ⟨id, n, s, len, hreach, hid, htype, hpos⟩
    obtain ⟨i, hi⟩ := List.mem_iff_getElem?.1 (Dag.mem_postorder.2 hreach)
    obtain ⟨l, hl, ⟨m, hm, hline⟩, htype'⟩ := forall₂_getElem? h hi
    obtain rfl : m = .input n := by simpa [hm] using hid
    refine ⟨l, List.mem_of_getElem? hl, (Option.some.inj hline).symm, s, len, ?_, hpos⟩
    rw [htype] at htype'
    exact (Except.ok.inj htype').symm

namespace Network

variable {net : Network} {e : Ensemble}

/-- Only a neuron with sources reads a vector of inputs that is not empty. -/
theorem Ready.sources_ne_nil (hr : net.Ready) {n : NeuronId} {x : Neuron}
    (hx : net.neurons[n]? = some x) {root : NodeId} (hroot : net.forward? n = some root)
    (h : net.ReadsVector root) : x.sources ≠ [] := by
  obtain ⟨id, m, s, len, hreach, hid, htype, hpos⟩ := h
  obtain rfl : m = n := (hr.checked n root hroot).1 id m hreach hid
  rw [typeOf_input hr.wellFormed.ordered hid hx] at htype
  intro hnil
  have hty : x.inputTy = .vector s (some len) := Except.ok.inj htype
  unfold Neuron.inputTy at hty
  split at hty
  · cases hty
  · simp [hnil, Ty.vectorOf] at hty
    omega

/-- Where the representative reads a vector of inputs, every member has sources. -/
theorem Ready.members_have_sources (hr : net.Ready)
    (hcong : ∀ n ∈ e.others, net.Congruent n e.representative) {root : NodeId}
    (hroot : net.forward? e.representative = some root) (h : net.ReadsVector root) :
    ∀ n ∈ e.neurons, 0 < (net.sourcesOf n).length := by
  obtain ⟨x, hx, _⟩ := Option.bind_eq_some_iff.1 hroot
  have hpos : 0 < x.sources.length := List.length_pos_iff.2 (hr.sources_ne_nil hx hroot h)
  intro n hn
  rcases List.mem_cons.1 hn with rfl | hn
  · rwa [length_sourcesOf hx]
  · obtain ⟨y, z, _, _, hy, hz, _, _, hlen, _⟩ := hcong n hn
    obtain rfl : x = z := Option.some.inj (hx.symm.trans hz)
    rwa [length_sourcesOf hy, hlen]

/-- A stride leads from the first source of one member to that of the next. -/
theorem stride?_eq_some {stride : Int} (h : net.stride? e = some stride) :
    ∃ first : Int, ∀ (k : Nat) (n : NeuronId), e.neurons[k]? = some n →
      ∃ p, (net.sourcesOf n).head? = some p ∧ (p : Int) = first + stride * k := by
  obtain ⟨first, hfirst⟩ := Wiring.stride?_eq_some h
  refine ⟨first, fun k n hn => ?_⟩
  have hbase := hfirst k ((net.sourcesOf n).head?.map Int.ofNat) (by simp [hn])
  obtain ⟨p, hp, he⟩ := Option.map_eq_some_iff.1 hbase
  exact ⟨p, hp, he⟩

theorem stride?_eq_none_iff : net.stride? e = none ↔ ¬ net.InProgression e := by
  constructor
  · intro hnone hprogression
    obtain ⟨first, stride, h⟩ := hprogression
    have hbases : ∀ (k : Nat) (base : Option Int),
        (e.neurons.map fun n => (net.sourcesOf n).head?.map Int.ofNat)[k]? = some base →
          base = some (first + stride * k) := by
      intro k base hbase
      rw [List.getElem?_map] at hbase
      obtain ⟨n, hn, rfl⟩ := Option.map_eq_some_iff.1 hbase
      obtain ⟨p, hp, he⟩ := h k n hn
      rw [hp, ← he]
      rfl
    have hsome : (net.stride? e).isSome := Wiring.stride?_isSome hbases
    simp [hnone] at hsome
  · intro hnot
    cases hstride : net.stride? e with
    | none => rfl
    | some stride =>
      obtain ⟨first, hfirst⟩ := stride?_eq_some hstride
      exact absurd ⟨first, stride, hfirst⟩ hnot

/-- Each column of the tables has the literals of one rank. -/
theorem tabulates_literalTables (hcount : ∀ n ∈ e.neurons,
      (net.literalsOf n).length = (net.literalsOf e.representative).length) :
    Tabulates net e.start ((net.literalsOf e.representative).map Literal.ty) e.neurons
      (net.literalTables e) := by
  have hrow : ∀ j < (net.literalsOf e.representative).length, ∀ n ∈ e.neurons,
      ∃ c, (net.literalsOf n)[j]? = some c := by
    intro j hj n hn
    have hlt : j < (net.literalsOf n).length := by rwa [hcount n hn]
    exact ⟨_, List.getElem?_eq_getElem hlt⟩
  refine ⟨?_, ?_, ?_, ?_⟩
  · have hfst := List.zipIdx_map_fst 0 (net.literalsOf e.representative)
    conv_rhs => rw [← hfst, List.map_map]
    rw [literalTables, List.map_map]
    rfl
  · intro t ht
    obtain ⟨q, _, rfl⟩ := List.mem_map.1 ht
    rfl
  · intro t ht
    obtain ⟨⟨c, j⟩, hq, rfl⟩ := List.mem_map.1 ht
    apply List.filterMap_length_eq_length.2
    intro n hn
    have hj : j < (net.literalsOf e.representative).length :=
      (List.getElem?_eq_some_iff.1 (List.mk_mem_zipIdx_iff_getElem?.1 hq)).1
    obtain ⟨d, hd⟩ := hrow j hj n hn
    rw [hd, Option.isSome_some]
  · intro k n hn j c hc
    have hj : j < (net.literalsOf e.representative).length := by
      rw [← hcount n (List.mem_of_getElem? hn)]
      exact (List.getElem?_eq_some_iff.1 hc).1
    have hget : (net.literalTables e)[j]? = some
        { elem := (net.literalsOf e.representative)[j].ty, first := e.start,
          entries := e.neurons.filterMap fun m => (net.literalsOf m)[j]? } := by
      simp [literalTables, List.getElem?_eq_getElem hj]
    refine ⟨_, hget, ?_⟩
    rw [getElem?_filterMap_of_isSome (hrow j hj), hn, Option.bind_some, hc]

/-- The tables that the rule gives are those of the ensemble. -/
theorem Ready.tabled (hr : net.Ready) (hcong : ∀ n ∈ e.others, net.Congruent n e.representative)
    (hrecipe : net.HasRecipe e.representative) :
    net.Tabled e (net.literalTables e) (net.baseTables e) := by
  obtain ⟨root, r, hroot, hrecipe⟩ := hrecipe
  have hmember : ∀ n ∈ e.neurons, ∃ root, net.forward? n = some root ∧
      (net.literalsOf n).map Literal.ty = (net.literalsOf e.representative).map Literal.ty := by
    intro n hn
    rcases List.mem_cons.1 hn with rfl | hn
    · exact ⟨root, hroot, rfl⟩
    · exact (hcong n hn).literal_types hr
  have htables := net.tabulates_literalTables (e := e) fun n hn => by
    obtain ⟨_, _, htypes⟩ := hmember n hn
    simpa using congrArg List.length htypes
  have hreads : (net.recipe e.representative).readsVector = true ↔ net.ReadsVector root := by
    rw [hrecipe.recipe_eq hroot, hrecipe.readsVector_iff]
  have hbases : ∀ t ∈ net.baseTables e, t = net.baseTable e ∧ net.ReadsVector root := by
    intro t ht
    unfold baseTables at ht
    split at ht
    · rename_i hneeded
      exact ⟨List.mem_singleton.1 ht, hreads.1 hneeded.1⟩
    · cases ht
  refine ⟨?_, ?_, ?_, ?_, ?_⟩
  · intro k n hn
    obtain ⟨v, hv, htypes⟩ := hmember n (List.mem_of_getElem? hn)
    have hliterals := literalsOf_eq hv
    rw [← htypes] at htables
    refine ⟨v, _, hv, literalNodes_literalIds _ v, List.forall₂_iff_get.2 ⟨?_, ?_⟩⟩
    · have hlength := congrArg List.length htables.types
      simpa [hliterals, literalIds] using hlength.symm
    · intro j hj hj'
      have hlt : j < (Arena.literals net.arena.nodes v).length := by simpa [literalIds] using hj
      have hc : (net.literalsOf n)[j]? = some (Arena.literals net.arena.nodes v)[j].2 := by
        simp [hliterals, List.getElem?_eq_getElem hlt]
      obtain ⟨t, ht, hentry⟩ := htables.entries k n hn j _ hc
      have htj : (net.literalTables e).get ⟨j, hj'⟩ = t := (List.getElem?_eq_some_iff.1 ht).2
      have htype := congrArg (·[j]?) htables.types
      simp only [List.getElem?_map, ht, hc, Option.map_some, Option.some.injEq] at htype
      refine ⟨_, ?_, by rw [htj, hentry], by rw [htj, htype]⟩
      simp only [literalIds, List.get_eq_getElem, List.getElem_map]
      exact of_mem_literals (List.getElem_mem hlt)
  · intro t ht
    have hextent : t.first = e.start ∧ t.entries.length = e.neurons.length := by
      rcases List.mem_append.1 ht with ht | ht
      · exact ⟨htables.start t ht, htables.length t ht⟩
      · rw [(hbases t ht).1]
        exact ⟨rfl, List.length_map _⟩
    refine ⟨hextent.1, hextent.2, fun i => ?_⟩
    rw [t.get?_isSome, hextent.1, hextent.2]
    rfl
  · unfold baseTables
    split <;> simp
  · simp only [hroot, Option.some.injEq, exists_eq_left', ← stride?_eq_none_iff, ← hreads]
    unfold baseTables
    split_ifs with hneeded
    · exact iff_of_true (by simp) hneeded
    · exact iff_of_false (by simp) hneeded
  · intro t ht
    obtain ⟨rfl, hvector⟩ := hbases t ht
    refine ⟨rfl, fun k n hn => ?_⟩
    have hne : net.sourcesOf n ≠ [] := by
      rw [← List.length_pos_iff]
      exact hr.members_have_sources hcong hroot hvector n (List.mem_of_getElem? hn)
    obtain ⟨p, ps, hps⟩ := List.exists_cons_of_ne_nil hne
    exact ⟨p, by simp [hps], by simp [baseTable, hn, hps]⟩

end Network

/-- The tables of a kernel are those of the ensembles that were lowered, one ensemble after the
other, and there are no others. -/
theorem kernel_tables_aligned {s s' : Session} (hs : s.Reachable) {k : Kernel}
    (hk : Pass.lower s = .ok k s') :
    ∃ (ess : List (List Ensemble)) (blocks : List (List Table × List Table)),
      List.Forall₂ (fun q es => (Pass.ensembles q.2).result s = .ok es) s.net.loweredLayers ess ∧
      List.Forall₂ (fun e b => s.net.Tabled e b.1 b.2) ess.flatten blocks ∧
      k.tables.toList = blocks.flatMap fun b => b.1 ++ b.2 := by
  have hlowering : s.net.lowering = .ok k := by
    rw [← hs.lower_result, Pass.result, hk]
  have hr := Network.Ready.of_lowering hs.wellFormed hs.built hlowering
  obtain ⟨es, hes, htables⟩ := Network.lowering_tables hlowering
  obtain ⟨ess, hess, rfl⟩ := Network.groupings_eq_ok hes
  refine ⟨ess, ess.flatten.map fun e => (s.net.literalTables e, s.net.baseTables e), ?_, ?_, ?_⟩
  · have hlayers := (List.forall₂_and_left _ ess).2
      ⟨fun q hq => getElem?_of_mem_loweredLayers hq, hess⟩
    apply hlayers.imp
    intro q here h
    rw [(hr.ensembles (hs.upToDate hr) h.1).result hs.wellFormed, h.2]
  · rw [List.forall₂_map_right_iff]
    apply List.forall₂_same.2
    intro e he
    obtain ⟨q, hq, here, hhere, he⟩ := Network.of_mem_groupings hes he
    have hl := getElem?_of_mem_loweredLayers hq
    have htiles := hr.tiles hl hhere
    have hmem : e.representative ∈ q.1.neurons := htiles.mem he (by simp [Ensemble.neurons])
    exact hr.tabled (htiles.congruent he) ((hs.lowered hk).recipes q hq _ hmem)
  · rw [htables, Network.tables, List.flatMap_map]

/-- Three neurons with one source each, at the positions 0, 2 and 1. Each expression names one of
its two constants twice. The constants do not stand in the same order in the arena. -/
def scattered : Session := .ofRequests [
  .addLayer, .addNeuron 0 .input, .addNeuron 0 .input, .addNeuron 0 .input,
  .addLayer, .addNeuron 1 .output, .addNeuron 1 .output, .addNeuron 1 .output,
  .connect 0 3, .connect 2 4, .connect 1 5,
  .setForward 3 { above := [.literal (.real ⟨2⟩), .input 3, .literal (.vec [⟨3⟩]), .binary .mul 1 2,
                            .reduce .sum 3, .binary .sub 0 4], last := .binary .mul 5 0 },
  .setForward 4 { above := [.literal (.vec [⟨5⟩]), .literal (.real ⟨7⟩), .input 4, .binary .mul 2 0,
                            .reduce .sum 3, .binary .sub 1 4], last := .binary .mul 5 1 },
  .setForward 5 { above := [.literal (.real ⟨11⟩), .input 5, .literal (.vec [⟨13⟩]),
                            .binary .mul 1 2, .reduce .sum 3, .binary .sub 0 4],
                  last := .binary .mul 5 0 }]

theorem scattered_tables_aligned : scattered.Reachable ∧ ∃ k s', Pass.lower scattered = .ok k s' ∧
    k.tables = #[
      { elem := .real, first := 0, entries := [.real ⟨2⟩, .real ⟨7⟩, .real ⟨11⟩] },
      { elem := .vectorOf .real 1, first := 0, entries := [.vec [⟨3⟩], .vec [⟨5⟩], .vec [⟨13⟩]] },
      { elem := .int, first := 0, entries := [.int 0, .int 2, .int 1] }] ∧
    ∃ (ess : List (List Ensemble)) (blocks : List (List Table × List Table)),
      List.Forall₂ (fun q es => (Pass.ensembles q.2).result scattered = .ok es)
        scattered.net.loweredLayers ess ∧
      List.Forall₂ (fun e b => scattered.net.Tabled e b.1 b.2) ess.flatten blocks ∧
      k.tables.toList = blocks.flatMap fun b => b.1 ++ b.2 := by
  have hs : scattered.Reachable := Session.reachable_ofRequests _
  have htables : scattered.kernel?.map Kernel.tables = some #[
      { elem := .real, first := 0, entries := [.real ⟨2⟩, .real ⟨7⟩, .real ⟨11⟩] },
      { elem := .vectorOf .real 1, first := 0, entries := [.vec [⟨3⟩], .vec [⟨5⟩], .vec [⟨13⟩]] },
      { elem := .int, first := 0, entries := [.int 0, .int 2, .int 1] }] := by decide +kernel
  obtain ⟨k, hk, htables⟩ := Option.map_eq_some_iff.1 htables
  obtain ⟨s', hlower⟩ := Session.kernel?_eq_some.1 hk
  exact ⟨hs, k, s', hlower, htables, kernel_tables_aligned hs hlower⟩

end Synapse
