import Mathlib.Tactic
import Synapse.Lowering.Layers
import Synapse.Proofs.CodeTypes
import Synapse.Proofs.Execution

namespace Synapse

namespace Network

/-- The expression that computes a neuron. -/
def forward? (net : Network) (n : NeuronId) : Option NodeId := net.neurons[n]?.bind (·.forward)

/-- The positions of a neuron's sources, by the number of the neuron. -/
def sourcesOf (net : Network) (n : NeuronId) : List Nat :=
  match net.neurons[n]? with
  | some x => net.sourcePositions x
  | none => []

/-- The literals of a neuron's expression, in pre-order. -/
def literalsOf (net : Network) (n : NeuronId) : List Literal :=
  match net.forward? n with
  | some root => (Arena.literals net.arena.nodes root).map (·.2)
  | none => []

/-- What the type check ensures: each expression is scalar and reads its own inputs only. -/
def Checked (net : Network) : Prop :=
  ∀ (n : NeuronId) (root : NodeId), net.forward? n = some root →
    ReadsOwn net.arena.nodes n root ∧ ∃ s, typeOf net.arena.nodes net.env root = .ok (.scalar s)

end Network

theorem mem_inputNeurons {nodes : Array Node} {root : NodeId} {n : NeuronId} :
    n ∈ Arena.inputNeurons nodes root ↔
      ∃ x, (Arena.dag nodes).Reaches root x ∧ nodes[x]? = some (.input n) := by
  rw [Arena.inputNeurons, List.mem_filterMap]
  refine exists_congr fun x => and_congr Dag.mem_preorder ?_
  split <;> simp_all

theorem readsOwn_of_any {nodes : Array Node} {root : NodeId} {n : NeuronId}
    (h : ¬ (Arena.inputNeurons nodes root).any (· != n) = true) : ReadsOwn nodes n root := by
  intro x m hx hm
  by_contra hne
  exact h (List.any_eq_true.2 ⟨m, mem_inputNeurons.2 ⟨x, hx, hm⟩, by simpa using hne⟩)

theorem any_of_readsOwn {nodes : Array Node} {root : NodeId} {n : NeuronId}
    (h : ReadsOwn nodes n root) : (Arena.inputNeurons nodes root).any (· != n) = false := by
  refine List.any_eq_false.2 fun m hm => ?_
  obtain ⟨x, hx, hinput⟩ := mem_inputNeurons.1 hm
  simp [h x m hx hinput]

theorem of_mem_literals {nodes : Array Node} {root id : NodeId} {c : Literal}
    (h : (id, c) ∈ Arena.literals nodes root) : nodes[id]? = some (.literal c) := by
  obtain ⟨x, _, hx⟩ := List.mem_filterMap.1 h
  obtain ⟨d, hd, he⟩ := Option.map_eq_some_iff.1 hx
  obtain ⟨rfl, rfl⟩ : x = id ∧ d = c := by simpa using he
  obtain ⟨n, hn, hnd⟩ := Option.bind_eq_some_iff.1 hd
  rw [hn]
  cases n <;> simp_all [Node.literal?]

/-- The columns of a table are filled row by row. -/
theorem addRow_eq_ok {first : TableId} {tables tables' : List Table} {row : List Literal}
    (h : Pass.addRow first tables row = .ok tables') :
    tables' = List.zipWith (fun t c => { t with entries := t.entries ++ [c] }) tables row := by
  unfold Pass.addRow at h
  induction tables generalizing first tables' row with
  | nil => simpa [pure, Except.pure, eq_comm] using h
  | cons t tables ih =>
    cases row with
    | nil => simpa [pure, Except.pure, eq_comm] using h
    | cons c row =>
      rw [List.zip_cons_cons, List.zipIdx_cons, List.mapM_cons] at h
      obtain ⟨t', ht', h⟩ := bind_eq_ok.1 h
      obtain ⟨rest, hrest, h⟩ := bind_eq_ok.1 h
      obtain rfl : t' :: rest = tables' := Except.ok.inj h
      rw [List.zipWith_cons_cons, ih hrest]
      change t.add first c = .ok t' at ht'
      unfold Table.add at ht'
      split_ifs at ht' with hagrees
      rw [← Except.ok.inj ht']

/-- Tables of the given types that hold the literals of some members, the first of which has the
position `first`. -/
structure Tabulates (net : Network) (first : Nat) (tys : List Ty) (ns : List NeuronId)
    (tables : List Table) : Prop where
  types : tables.map (·.elem) = tys
  start : ∀ t ∈ tables, t.first = first
  length : ∀ t ∈ tables, t.entries.length = ns.length
  entries : ∀ (i : Nat) (n : NeuronId), ns[i]? = some n → ∀ (j : Nat) (c : Literal),
    (net.literalsOf n)[j]? = some c → ∃ t, tables[j]? = some t ∧ t.entries[i]? = some c

theorem Tabulates.addRow {net : Network} {first : Nat} {tys : List Ty} {ns : List NeuronId}
    {tables : List Table} (h : Tabulates net first tys ns tables) {n : NeuronId}
    (hn : (net.literalsOf n).length = tables.length) :
    Tabulates net first tys (ns ++ [n]) (List.zipWith
      (fun t c => { t with entries := t.entries ++ [c] }) tables (net.literalsOf n)) := by
  have hmem : ∀ t', t' ∈ List.zipWith (fun (t : Table) c => { t with entries := t.entries ++ [c] })
      tables (net.literalsOf n) → ∃ t ∈ tables, t'.first = t.first ∧
        t'.entries.length = t.entries.length + 1 := by
    intro t' ht'
    obtain ⟨j, hj⟩ := List.mem_iff_getElem?.1 ht'
    obtain ⟨t, c, ht, _, rfl⟩ := List.getElem?_zipWith_eq_some.1 hj
    exact ⟨t, List.mem_of_getElem? ht, rfl, by simp⟩
  refine ⟨?_, fun t' ht' => ?_, fun t' ht' => ?_, fun i m hi j c hc => ?_⟩
  · rw [← h.types]
    exact List.ext_getElem (by simp [hn]) (by simp)
  · obtain ⟨t, ht, hfirst, _⟩ := hmem t' ht'
    rw [hfirst, h.start t ht]
  · obtain ⟨t, ht, _, hlen⟩ := hmem t' ht'
    rw [hlen, h.length t ht]
    simp
  · have hget : ∀ t d, tables[j]? = some t → (net.literalsOf n)[j]? = some d →
        (List.zipWith (fun (t : Table) c => { t with entries := t.entries ++ [c] }) tables
          (net.literalsOf n))[j]? = some { t with entries := t.entries ++ [d] } :=
      fun t d ht hd => List.getElem?_zipWith_eq_some.2 ⟨t, d, ht, hd, rfl⟩
    rcases Nat.lt_or_ge i ns.length with hlt | hge
    · rw [List.getElem?_append_left hlt] at hi
      obtain ⟨t, ht, hentry⟩ := h.entries i m hi j c hc
      have hj : j < (net.literalsOf n).length := by
        rw [hn]
        exact (List.getElem?_eq_some_iff.1 ht).1
      refine ⟨_, hget t _ ht (List.getElem?_eq_getElem hj), ?_⟩
      have hlen : i < t.entries.length := by rwa [h.length t (List.mem_of_getElem? ht)]
      rw [List.getElem?_append_left hlen, hentry]
    · rw [List.getElem?_append_right hge] at hi
      obtain ⟨rfl, hzero⟩ : n = m ∧ i - ns.length = 0 := by
        have := List.getElem?_eq_some_iff.1 hi
        simp_all
      have hj : j < tables.length := by
        rw [← hn]
        exact (List.getElem?_eq_some_iff.1 hc).1
      refine ⟨_, hget _ c (List.getElem?_eq_getElem hj) hc, ?_⟩
      have hlen := h.length _ (List.getElem_mem hj)
      rw [List.getElem?_append_right (by omega), hlen, hzero]
      rfl

namespace Pass.Answers

variable {net : Network}

/-- A fold keeps an invariant that says which elements are done. -/
theorem foldlM {α β : Type} {f : β → α → Pass β} {P : List α → β → Prop} {xs : List α}
    (h : ∀ done x b, P done b → Answers net (f b x) (Gives (P (done ++ [x])))) {done : List α}
    {b : β} (hb : P done b) : Answers net (xs.foldlM f b) (Gives (P (done ++ xs))) := by
  induction xs generalizing done b with
  | nil =>
    refine pure ?_
    rintro b' ⟨⟩
    simpa using hb
  | cons x xs ih =>
    rw [List.foldlM_cons]
    refine (h done x b hb).bindGives fun b' hb' => ?_
    simpa using ih hb'

theorem check (hw : net.WellFormed) : Answers net Pass.check (Gives fun _ => net.Checked) := by
  have hneuron : ∀ (l : LayerId) (p : Nat) (n : NeuronId), Answers net (Pass.checkNeuron l p n)
      (Gives fun _ => ∀ root, net.forward? n = some root → ReadsOwn net.arena.nodes n root ∧
        ∃ s, Synapse.typeOf net.arena.nodes net.env root = .ok (.scalar s)) := by
    intro l p n
    unfold checkNeuron
    refine (neuron n).bindGives fun x hx => ?_
    have hforward : net.forward? n = x.forward := by simp [Network.forward?, hx]
    split
    · rename_i hnone
      refine pure fun _ _ root hroot => ?_
      rw [hforward, hnone] at hroot
      cases hroot
    · rename_i root hroot
      refine network (fun _ => rfl) ?_
      split
      · exact throw (by rintro _ ⟨⟩)
      · rename_i hown
        refine (infer root).bind (fun t ht => ?_) (fun e _ _ h => by cases h)
        refine (report _ (P := Gives fun _ => True) fun _ _ => trivial).bindGives fun _ _ => ?_
        split
        · exact throw (by rintro _ ⟨⟩)
        · rename_i hscalar
          refine pure fun _ _ root' hroot' => ?_
          obtain rfl : root = root' := by simpa [hforward, hroot] using hroot'
          refine ⟨readsOwn_of_any hown, ?_⟩
          cases t with
          | scalar s => exact ⟨s, ht.symm⟩
          | vector s m => exact absurd rfl hscalar
  refine network (fun _ => rfl) ((forM (Q := fun q => ∀ n ∈ q.1.neurons, ∀ root,
    net.forward? n = some root → ReadsOwn net.arena.nodes n root ∧
      ∃ s, Synapse.typeOf net.arena.nodes net.env root = .ok (.scalar s)) fun q _ => ?_).gives
      fun _ hall n root hroot => ?_)
  · refine (forM fun r _ => hneuron q.2 r.2 r.1).gives fun _ hq n hn => ?_
    obtain ⟨p, hp⟩ := List.mem_iff_getElem?.1 hn
    exact hq _ rfl (n, p) (List.mk_mem_zipIdx_iff_getElem?.2 hp)
  · obtain ⟨x, hx, _⟩ := Option.bind_eq_some_iff.1 hroot
    obtain ⟨layer, hl, hn⟩ := hw.listed n x hx
    exact hall _ rfl (layer, x.layer) (by simpa [List.mk_mem_zipIdx_iff_getElem?] using hl) n
      (List.mem_of_getElem? hn) root hroot

theorem forwardOf (n : NeuronId) :
    Answers net (Pass.forwardOf n) (Gives fun root => net.forward? n = some root) := by
  refine (neuron n).bindGives fun x hx => ?_
  split
  · rename_i root hroot
    refine pure ?_
    rintro _ ⟨⟩
    simp [Network.forward?, hx, hroot]
  · exact throw (by rintro _ ⟨⟩)

theorem literalsOf (n : NeuronId) (tables : Nat) : Answers net (Pass.literalsOf n tables)
    (Gives fun row => row = net.literalsOf n ∧ row.length = tables) := by
  refine (forwardOf n).bindGives fun root hroot => network (fun _ => rfl) ?_
  simp only
  split
  · rename_i hlen
    refine pure ?_
    rintro row ⟨⟩
    exact ⟨by simp [Network.literalsOf, hroot], hlen⟩
  · exact throw (by rintro _ ⟨⟩)

/-- There is a table for each literal of the representative. -/
theorem literalTables (ho : Arena.Ordered net.arena.nodes) (e : Ensemble) (first : TableId) :
    Answers net (Pass.literalTables e first) (Gives fun tables => ∀ root,
      net.forward? e.representative = some root → Tabulates net e.start
        ((Arena.literals net.arena.nodes root).map (·.2.ty)) e.neurons tables) := by
  refine (forwardOf _).bindGives fun root hroot => network (fun _ => rfl) ?_
  have hempty : ∀ q ∈ Arena.literals net.arena.nodes root, Answers net (do
      return ({ elem := ← Pass.infer q.1, first := e.start } : Table))
      (Gives fun t => t = { elem := q.2.ty, first := e.start }) := by
    intro q hq
    refine (infer q.1).bind (fun t ht => pure ?_) (fun _ _ _ h => by cases h)
    rw [typeOf_node ho (of_mem_literals hq)] at ht
    rintro u ⟨⟩
    rw [Except.ok.inj ht]
  refine (mapM hempty).bindGives fun empty hemptys => ?_
  have hstart : Tabulates net e.start ((Arena.literals net.arena.nodes root).map (·.2.ty)) []
      empty := by
    have heq : empty = (Arena.literals net.arena.nodes root).map
        fun q => ({ elem := q.2.ty, first := e.start } : Table) :=
      (List.forall₂_eq_eq_eq ▸ List.forall₂_map_left_iff.2 (hemptys.imp fun _ _ h => h.symm) :
        _ = _).symm
    subst heq
    refine ⟨by simp, ?_, ?_, by simp⟩
    · intro t ht
      obtain ⟨q, _, rfl⟩ := List.mem_map.1 ht
      rfl
    · intro t ht
      obtain ⟨q, _, rfl⟩ := List.mem_map.1 ht
      rfl
  refine (foldlM (P := fun ns tables => Tabulates net e.start
    ((Arena.literals net.arena.nodes root).map (·.2.ty)) ns tables) (fun ns n tables h => ?_)
    hstart).gives fun tables htables root' hroot' => ?_
  · refine (literalsOf n tables.length).bindGives fun row hrow => ?_
    refine (orDefect _).gives fun tables' htables' => ?_
    rw [addRow_eq_ok (orDefect_eq_ok.1 htables'.symm), hrow.1]
    exact h.addRow (hrow.1 ▸ hrow.2)
  · obtain rfl : root = root' := by simpa [hroot] using hroot'
    exact htables _ rfl

end Pass.Answers

/-- The table that holds the position of each member's first source. -/
def Network.baseTable (net : Network) (e : Ensemble) : Table where
  elem := .int
  first := e.start
  entries := e.neurons.map fun n => .int ((net.sourcesOf n).headD 0 : Nat)

/-- How a wiring leads each member to its first source. -/
def Addresses (net : Network) (e : Ensemble) (next : TableId) : Wiring → List Table → Prop
  | .affine stride, tables => tables = [] ∧ ∀ (i : Nat) (n : NeuronId), e.neurons[i]? = some n →
    ∃ p q : Nat, (net.sourcesOf e.representative).head? = some p ∧
      (net.sourcesOf n).head? = some q ∧ (q : Int) = p + stride * i
  | .table t, tables => t = next ∧ tables = [net.baseTable e]

theorem Wiring.stride?_eq_some {bases : List (Option Int)} {stride : Int}
    (h : Wiring.stride? bases = some stride) :
    ∃ first : Int, ∀ (i : Nat) (base : Option Int), bases[i]? = some base →
      base = some (first + stride * i) := by
  obtain ⟨hall, hstride⟩ := Option.ite_none_right_eq_some.1 h
  obtain rfl := Option.some.inj hstride
  refine ⟨bases[0]?.join.getD 0, fun i base hi => ?_⟩
  have hbase := List.all_eq_true.1 hall (base, i) (List.mk_mem_zipIdx_iff_getElem?.2 hi)
  exact beq_iff_eq.1 hbase

/-- A stride is found whenever one explains all positions. -/
theorem Wiring.stride?_isSome {bases : List (Option Int)} {first stride : Int}
    (h : ∀ (i : Nat) (base : Option Int), bases[i]? = some base →
      base = some (first + stride * i)) : (Wiring.stride? bases).isSome := by
  -- the first two positions give away both the start and the stride
  have hfirst : ∀ b rest, bases = b :: rest → bases[0]?.join.getD 0 = first := by
    intro b rest he
    have hb := h 0 b (by simp [he])
    simp [he, hb]
  have hsecond : ∀ b c rest, bases = b :: c :: rest → bases[1]?.join = some (first + stride) := by
    intro b c rest he
    have hc := h 1 c (by simp [he])
    simp [he, hc]
  unfold stride?
  rw [if_pos, Option.isSome_some]
  apply List.all_eq_true.2
  intro q hq
  have hbase := h q.2 q.1 (List.mem_zipIdx_iff_getElem?.1 hq)
  have hlt : q.2 < bases.length :=
    (List.getElem?_eq_some_iff.1 (List.mem_zipIdx_iff_getElem?.1 hq)).1
  cases hbases : bases with
  | nil => simp [hbases] at hlt
  | cons b rest =>
    rw [← hbases]
    simp only [hfirst b rest hbases, hbase]
    cases hrest : rest with
    | nil =>
      have hzero : q.2 = 0 := by simp [hbases, hrest] at hlt; omega
      simp [hzero]
    | cons c rest' =>
      simp [hsecond b c rest' (hrest ▸ hbases)]

/-- The wiring of an ensemble serves it, if there is a vector of inputs to read. -/
def Wires (net : Network) (e : Ensemble) (r : Recipe) (next : TableId) (w : Wiring)
    (tables : List Table) : Prop :=
  if r.readsVector then Addresses net e next w tables else w = .affine 0 ∧ tables = []

namespace Pass.Answers

variable {net : Network}

theorem firstSources (e : Ensemble) : Answers net (Pass.firstSources e) (Gives fun bases =>
    bases = e.neurons.map fun n => (net.sourcesOf n).head?.map Int.ofNat) := by
  have hone : ∀ n ∈ e.neurons, Answers net (do
      return (← Pass.sourcePositions (← Pass.neuron n)).head?.map Int.ofNat)
      (Gives fun base => (net.sourcesOf n).head?.map Int.ofNat = base) := by
    intro n _
    refine (neuron n).bindGives fun x hx => (sourcePositions x).bindGives fun ps hps => pure ?_
    rintro base ⟨⟩
    rw [hps, Network.sourcesOf, hx]
  refine (mapM hone).gives fun bases hbases => ?_
  exact (List.forall₂_eq_eq_eq ▸ List.forall₂_map_left_iff.2 (hbases bases rfl) : _ = _).symm

theorem wire (e : Ensemble) (r : Recipe) (next : TableId) : Answers net (Pass.wire e r next)
    (Gives fun q => Wires net e r next q.1 q.2) := by
  unfold Pass.wire Wires
  split
  · refine (firstSources e).bindGives fun bases hbases => ?_
    have hget : ∀ (i : Nat) (n : NeuronId), e.neurons[i]? = some n →
        bases[i]? = some ((net.sourcesOf n).head?.map Int.ofNat) := by
      intro i n hi
      rw [hbases, List.getElem?_map, hi, Option.map_some]
    simp only
    refine (report _ (P := Gives fun _ => True) fun _ _ => trivial).bindGives fun _ _ => pure ?_
    rintro q ⟨⟩
    cases hs : Wiring.stride? bases with
    | some stride =>
      obtain ⟨first, hfirst⟩ := Wiring.stride?_eq_some hs
      refine ⟨rfl, fun i n hi => ?_⟩
      obtain ⟨p, hp, hp'⟩ := Option.map_eq_some_iff.1 (hfirst 0 _ (hget 0 e.representative rfl))
      obtain ⟨q, hq, hq'⟩ := Option.map_eq_some_iff.1 (hfirst i _ (hget i n hi))
      refine ⟨p, q, hp, hq, ?_⟩
      simp only [Int.ofNat_eq_natCast] at hp' hq'
      rw [hp', hq']
      ring
    | none =>
      refine ⟨rfl, ?_⟩
      simp only [hbases, List.map_map, Network.baseTable]
      congr 2
      refine List.map_congr_left fun n _ => ?_
      cases h : net.sourcesOf n <;> simp [h]
  · refine pure ?_
    rintro q ⟨⟩
    exact ⟨rfl, rfl⟩

end Pass.Answers

/-- What lowering finds out about an ensemble whose tables start with number `first`. -/
structure Plan (net : Network) (e : Ensemble) (first : TableId) where
  root : NodeId
  recipe : Recipe
  tables : List Table
  wiring : Wiring
  bases : List Table
  forward : net.forward? e.representative = some root
  recipeOf : RecipeOf net root recipe
  tabulates : Tabulates net e.start ((Arena.literals net.arena.nodes root).map (·.2.ty)) e.neurons
    tables
  wires : Wires net e recipe (first + tables.length) wiring bases

namespace Plan

variable {net : Network} {e : Ensemble} {first : TableId}

def site (p : Plan net e first) (input index : VarId) : Site where
  input := input
  index := index
  start := e.start
  firstTable := first
  sources := net.sourcesOf e.representative
  wiring := p.wiring

/-- A kernel with the tables of the ensemble. -/
def extend (p : Plan net e first) (b : Build) : Build :=
  { b with tables := b.tables ++ (p.tables ++ p.bases).toArray }

end Plan

/-- What lowering an ensemble adds to a kernel: its tables, its variables and its loop. -/
theorem Pass.Answers.lowerEnsemble {net : Network} (ho : Arena.Ordered net.arena.nodes)
    (e : Ensemble) (input output : VarId) (b : Build) :
    Answers net (Pass.lowerEnsemble e input output b) (Gives fun q =>
      ∃ p : Plan net e b.tables.size,
        (p.extend b).Grows q.1 (.int :: p.recipe.locals) (.index :: p.recipe.roles) ∧
        q.2.code? q.1.nodes =
          some (Code.ensemble e (p.site input) p.recipe output b.vars.size)) := by
  refine (literalTables ho e b.tables.size).bindGives fun tables htables => ?_
  refine (forwardOf e.representative).bindGives fun root hroot => ?_
  refine (recipeOf root).bindGives fun recipe hrecipe => ?_
  refine (wire e recipe _).bindGives fun w hwires => ?_
  refine (neuron e.representative).bindGives fun x hx => ?_
  refine (sourcePositions x).bindGives fun sources hsources => ?_
  refine (report _ (P := Gives fun _ => True) fun _ _ => trivial).bindGives fun _ _ => pure ?_
  rintro q ⟨⟩
  let p : Plan net e b.tables.size :=
    ⟨root, recipe, tables, w.1, w.2, hroot, hrecipe, htables root hroot, hwires⟩
  obtain rfl : sources = net.sourcesOf e.representative := by
    rw [hsources, Network.sourcesOf, hx]
  have hemits := Emit.emits_ensemble (p.extend b) e (p.site input) recipe output
  exact ⟨p, hemits.grows, hemits.holds⟩

end Synapse
