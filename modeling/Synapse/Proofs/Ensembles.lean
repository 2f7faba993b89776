import Mathlib.Tactic
import Synapse.Proofs.Lowering
import Synapse.Proofs.Scopes

namespace Synapse

/-- The kernel that a build becomes part of. -/
structure Build.Within (b : Build) (k : Kernel) : Prop where
  vars : ∀ (i : Nat) (t : Ty), (b.vars.toList.map Variable.ty)[i]? = some t →
    k.vars[i]?.map Variable.ty = some t
  nodes : Arena.Extends b.nodes k.arena.nodes
  tables : ∀ (i : Nat) (t : Table), b.tables[i]? = some t → k.tables[i]? = some t

namespace Build.Within

variable {b b' : Build} {k : Kernel} {tys : List Ty} {roles : List Role}

theorem of_grows (h : b'.Within k) (hg : b.Grows b' tys roles) : b.Within k := by
  refine ⟨fun i t hi => h.vars i t ?_, fun id n hn => h.nodes id n (hg.nodes id n hn),
    fun i t hi => h.tables i t (by rw [hg.tables, hi])⟩
  rw [hg.types, List.getElem?_append_left (List.getElem?_eq_some_iff.1 hi).1, hi]

/-- The variables that were added are found after those from before. -/
theorem local_ty (h : b'.Within k) (hg : b.Grows b' tys roles) {i : Nat} {t : Ty}
    (hi : tys[i]? = some t) : k.vars[b.vars.size + i]?.map Variable.ty = some t := by
  refine h.vars _ t ?_
  rw [hg.types, List.getElem?_append_right (by simp)]
  simpa using hi

theorem of_extend {net : Network} {e : Ensemble} {first : TableId} {p : Plan net e first}
    (h : (p.extend b).Within k) : b.Within k := by
  refine ⟨h.vars, h.nodes, fun i t hi => h.tables i t ?_⟩
  have hlt : i < b.tables.size := (Array.getElem?_eq_some_iff.1 hi).1
  rw [Plan.extend, Array.getElem?_append_left hlt, hi]

/-- The tables of an ensemble are found after those from before. -/
theorem table {net : Network} {e : Ensemble} {p : Plan net e b.tables.size}
    (h : (p.extend b).Within k) {i : Nat} {t : Table} (hi : (p.tables ++ p.bases)[i]? = some t) :
    k.tables[b.tables.size + i]? = some t := by
  refine h.tables _ t ?_
  rw [Plan.extend, Array.getElem?_append_right (by simp)]
  simpa using hi

end Build.Within

namespace Kernel

variable {k : Kernel}

theorem env_var {v : VarId} {t : Ty} (h : k.vars[v]?.map Variable.ty = some t) :
    k.env.var v = .ok t := by
  obtain ⟨x, hx, rfl⟩ := Option.map_eq_some_iff.1 h
  simp [env, var, hx, Except.map]

theorem lt_of_ty {v : VarId} {t : Ty} (h : k.vars[v]?.map Variable.ty = some t) :
    v < k.vars.size := by
  obtain ⟨x, hx, _⟩ := Option.map_eq_some_iff.1 h
  exact (Array.getElem?_eq_some_iff.1 hx).1

theorem env_table {i : TableId} {t : Table} (h : k.tables[i]? = some t) :
    k.env.table i = .ok t.elem := by
  simp [env, table, h, Except.map]

end Kernel

namespace Formula

variable {S : Type} {k : Kernel} {I : Interpretation S} {σ : Store S}

theorem Indexes.binary {φ ψ : Formula} {m n i : Int} (hφ : φ.Indexes k I σ m)
    (hψ : ψ.Indexes k I σ n) {op : Binary} (hop : op.onInt? m n = some i) :
    (Formula.binary op φ ψ).Indexes k I σ i := by
  obtain ⟨v, hv, hm⟩ := hφ
  obtain ⟨w, hw, hn⟩ := hψ
  refine ⟨I.binaryWord op v w, by rw [eval, hv, hw]; rfl, ?_⟩
  simp [Interpretation.binaryWord, hm, hn, hop]

theorem indexes_entry {t : TableId} {φ : Formula} {p n : Int} (hφ : φ.Indexes k I σ p)
    (ht : k.entry? t p = some (.int n)) : (entry t φ).Indexes k I σ n :=
  ⟨I.intWord n, eval_entry hφ ht, rfl⟩

theorem indexes_scaledIndex {site : Site} {stride : Int} {p : Nat}
    (hp : σ site.index = some (.scalar (I.intWord p))) :
    (scaledIndex site stride).Indexes k I σ (stride * p) := by
  unfold scaledIndex
  split
  · rename_i h
    rw [h, one_mul]
    exact indexes_var hp
  · exact (indexes_int stride).binary (indexes_var hp) rfl

/-- Where the wiring moves by a stride, the sources move with it. -/
theorem indexes_affine {site : Site} {stride : Int} (hw : site.wiring = .affine stride)
    {i rank : Nat} {q : Int} (hq : q = (site.sources.getD i 0 : Nat) + stride * rank)
    (hp : σ site.index = some (.scalar (I.intWord (site.start + rank : Nat)))) :
    (sourceIndex site i).Indexes k I σ q := by
  have hscaled : (scaledIndex site stride).Indexes k I σ (stride * (site.start + rank : Nat)) :=
    indexes_scaledIndex hp
  unfold sourceIndex
  simp only [hw]
  split
  · rename_i hzero
    convert indexes_int (k := k) (I := I) (σ := σ) _ using 1
    simp [hq, hzero]
  · split
    · rename_i hbase
      convert hscaled using 1
      push_cast
      rw [hq]
      linear_combination hbase
    · refine (indexes_int _).binary hscaled (congrArg some ?_)
      push_cast
      rw [hq]
      ring

/-- Where a table holds the first sources, the others lie at their offsets from it. -/
theorem indexes_table {site : Site} {t : TableId} (hw : site.wiring = .table t) {i p : Nat}
    {first q : Int} (ht : k.entry? t p = some (.int first))
    (hq : q = first + ((site.sources.getD i 0 : Nat) - (site.sources.getD 0 0 : Nat)))
    (hp : σ site.index = some (.scalar (I.intWord p))) :
    (sourceIndex site i).Indexes k I σ q := by
  have hentry := indexes_entry (indexes_var hp) ht
  unfold sourceIndex
  simp only [hw]
  split
  · rename_i hzero
    rw [hzero, add_zero] at hq
    rwa [hq]
  · rw [hq]
    exact hentry.binary (indexes_int _) rfl

end Formula

namespace Network

/-- The sizes that the lengths of vectors, which are words, can express. -/
structure Bounded (net : Network) : Prop where
  widths : ∀ layer ∈ net.layers, layer.neurons.length < UInt32.size
  sources : ∀ x ∈ net.neurons, x.sources.length < UInt32.size
  literals : ∀ node ∈ net.arena.nodes, ∀ c ∈ node.literal?, c.Bounded

instance (net : Network) : Decidable net.Bounded :=
  decidable_of_iff ((∀ layer ∈ net.layers, layer.neurons.length < UInt32.size) ∧
    (∀ x ∈ net.neurons, x.sources.length < UInt32.size) ∧
    ∀ node ∈ net.arena.nodes, ∀ c ∈ node.literal?, c.Bounded)
    ⟨fun h => ⟨h.1, h.2.1, h.2.2⟩, fun h => ⟨h.widths, h.sources, h.literals⟩⟩

/-- What a neuron reads from the values of the layer before. An input neuron reads the element at
its own position. -/
def reading {S : Type} (net : Network) (V : List S) (n : NeuronId) : Option (Datum S) :=
  match net.neurons[n]? with
  | none => none
  | some x =>
    if x.isInput then V[x.position]?.map .scalar
    else ((net.sourcePositions x).mapM (V[·]?)).map .vector

/-- A neuron whose expression has a recipe. -/
def HasRecipe (net : Network) (n : NeuronId) : Prop :=
  ∃ root r, net.forward? n = some root ∧ RecipeOf net root r

/-- A neuron whose expression is real. -/
def RealForward (net : Network) (n : NeuronId) : Prop :=
  ∃ root, net.forward? n = some root ∧ typeOf net.arena.nodes net.env root = .ok .real

end Network

theorem offsets_getElem? {ps qs : List Nat} (h : Pass.offsets ps = Pass.offsets qs) {i q : Nat}
    (hi : ps[i]? = some q) :
    ∃ r, qs[i]? = some r ∧ (q : Int) - (ps.headD 0 : Nat) = r - (qs.headD 0 : Nat) := by
  have hget := congrArg (fun l => l[i]?) h
  simp only [Pass.offsets, List.getElem?_map, hi, Option.map_some] at hget
  obtain ⟨r, hr, he⟩ := Option.map_eq_some_iff.1 hget.symm
  exact ⟨r, hr, he.symm⟩

theorem Kernel.entry?_eq {k : Kernel} {id : TableId} {t : Table} (ht : k.tables[id]? = some t)
    {rank : Nat} {c : Literal} (hc : t.entries[rank]? = some c) :
    k.entry? id (t.first + rank : Nat) = some c := by
  rw [Kernel.entry?, if_pos (Int.natCast_nonneg _), ht, Option.bind_some, Int.toNat_natCast,
    Table.get?, if_pos (Nat.le_add_right _ _), Nat.add_sub_cancel_left, hc]

theorem Recipe.Typed.input {literals : List Ty} {ty : Ty} {r : Recipe} {done : List Extent}
    (h : r.Typed literals ty done) {l : Line} (hl : l ∈ r) (hstep : l.step = .input) :
    ty = l.extent.ty := by
  induction r generalizing done with
  | nil => cases hl
  | cons l' rest ih =>
    rcases List.mem_cons.1 hl with rfl | hl
    · have htyped := h.1
      rwa [Line.Typed, hstep] at htyped
    · exact ih h.2 hl

/-- The type of an expression is that of the last line of its recipe. -/
theorem RecipeOf.last {net : Network} {root : NodeId} {r : Recipe} (h : RecipeOf net root r) :
    ∃ x, (r.map (·.extent)).getLast? = some x ∧
      typeOf net.arena.nodes net.env root = .ok x.ty := by
  obtain ⟨below, hbelow⟩ : ∃ below, net.order root = below ++ [root] :=
    (Arena.dag net.arena.nodes).postorder_eq_concat root
  obtain ⟨l, hl, hline⟩ := forall₂_getLast? h (x := root) (by rw [hbelow]; simp)
  exact ⟨l.extent, by rw [List.getLast?_map, hl, Option.map_some], hline.type⟩

section

variable {net : Network} {n : NeuronId} {root : NodeId}

theorem Network.literalsOf_eq (h : net.forward? n = some root) :
    net.literalsOf n = (Arena.literals net.arena.nodes root).map (·.2) := by
  rw [Network.literalsOf, h]

theorem Network.Bounded.literalsOf (hb : net.Bounded) (h : net.forward? n = some root) {c : Literal}
    (hc : c ∈ net.literalsOf n) : c.Bounded := by
  rw [Network.literalsOf_eq h] at hc
  obtain ⟨q, hq, rfl⟩ := List.mem_map.1 hc
  exact hb.literals _ (Array.mem_of_getElem? (of_mem_literals hq)) q.2 rfl

theorem RecipeOf.typed_literalsOf {r : Recipe} (hr : RecipeOf net root r)
    (ho : Arena.Ordered net.arena.nodes) {x : Neuron} (hx : net.neurons[n]? = some x)
    (h : net.forward? n = some root) (hown : ReadsOwn net.arena.nodes n root) :
    r.Typed ((net.literalsOf n).map Literal.ty) x.inputTy [] := by
  rw [Network.literalsOf_eq h, List.map_map]
  exact hr.typed ho hx hown

/-- With the literals and inputs of a neuron, its recipe gives its activation. -/
theorem RecipeOf.result_eq {r : Recipe} (hr : RecipeOf net root r)
    (ho : Arena.Ordered net.arena.nodes) (h : net.forward? n = some root)
    (hown : ReadsOwn net.arena.nodes n root) {S : Type} (I : Interpretation S)
    (input : Option (Datum S)) :
    r.result I (net.literalsOf n) input = net.fire I n input := by
  obtain ⟨x, hx, hroot⟩ := Option.bind_eq_some_iff.1 h
  rw [Recipe.result, Network.literalsOf_eq h, hr.values_getLast? ho hown]
  simp only [Network.fire, hx, hroot, Option.bind_eq_bind, Option.bind_some]
  rfl

end

namespace Plan

variable {net : Network} {e : Ensemble} {first : TableId}

/-- A neuron that the loop of an ensemble computes. -/
structure Member (p : Plan net e first) (n : NeuronId) (x : Neuron) (root : NodeId) : Prop where
  neuron : net.neurons[n]? = some x
  forward : net.forward? n = some root
  own : ReadsOwn net.arena.nodes n root
  recipeOf : RecipeOf net root p.recipe
  offsets : Pass.offsets (net.sourcePositions x) = Pass.offsets (net.sourcesOf e.representative)

theorem member (p : Plan net e first) (hw : net.WellFormed) (hc : net.Checked)
    (hcong : ∀ n ∈ e.others, net.Congruent n e.representative) {n : NeuronId}
    (hn : n ∈ e.neurons) : ∃ x root, p.Member n x root := by
  have hforward := p.forward
  obtain ⟨y, hy, hyf⟩ := Option.bind_eq_some_iff.1 hforward
  have hsources : net.sourcesOf e.representative = net.sourcePositions y := by
    rw [Network.sourcesOf, hy]
  rcases List.mem_cons.1 hn with rfl | hn
  · exact ⟨y, p.root, hy, hforward, (hc _ _ hforward).1, p.recipeOf, by rw [hsources]⟩
  · obtain ⟨x, z, v, w, hx, hz, hxv, hzw, _, hoff, hmatch⟩ := hcong n hn
    obtain rfl : y = z := by simpa [hy] using hz
    obtain rfl : p.root = w := by simpa [hyf] using hzw
    have hv : net.forward? n = some v := by simp [Network.forward?, hx, hxv]
    have hown := (hc n v hv).1
    obtain ⟨f, hf, hmatches⟩ := hmatch hown (hc _ _ hforward).1
    refine ⟨x, v, hx, hv, hown, .of_matches hw.ordered hmatches ?_, by rw [hsources, hoff]⟩
    rw [hf]
    exact p.recipeOf

namespace Member

variable {p : Plan net e first} {n : NeuronId} {x : Neuron} {root : NodeId}

theorem typed (h : p.Member n x root) (ho : Arena.Ordered net.arena.nodes) :
    p.recipe.Typed ((net.literalsOf n).map Literal.ty) x.inputTy [] :=
  h.recipeOf.typed_literalsOf ho h.neuron h.forward h.own

theorem realForward_iff (h : p.Member n x root) {s : Scalar}
    (hs : (p.recipe.map (·.extent)).getLast? = some (.scalar s)) :
    net.RealForward n ↔ s = .real := by
  obtain ⟨y, hy, hty⟩ := h.recipeOf.last
  obtain rfl : .scalar s = y := by simpa [hs] using hy
  constructor
  · rintro ⟨root', hroot', hreal⟩
    obtain rfl : root = root' := by simpa [h.forward] using hroot'
    rw [hty] at hreal
    cases hreal
    rfl
  · rintro rfl
    exact ⟨root, h.forward, hty⟩

/-- The wiring leads a member to its own sources. -/
theorem indexes {b : Build} {k : Kernel} {p : Plan net e b.tables.size} (h : p.Member n x root)
    (hk : (p.extend b).Within k) (hreads : p.recipe.readsVector = true) {rank : Nat}
    (hrank : e.neurons[rank]? = some n) {S : Type} {I : Interpretation S} {σ : Store S}
    {input index : VarId} (hσ : σ index = some (.scalar (I.intWord (e.start + rank : Nat))))
    {i q : Nat} (hi : (net.sourcePositions x)[i]? = some q) :
    (Formula.sourceIndex (p.site input index) i).Indexes k I σ q := by
  have hsources : net.sourcesOf n = net.sourcePositions x := by
    rw [Network.sourcesOf, h.neuron]
  obtain ⟨r, hr, hoff⟩ := offsets_getElem? h.offsets hi
  have hwires := p.wires
  rw [Wires, if_pos hreads] at hwires
  have hget : (p.site input index).sources.getD i 0 = r := by
    change (net.sourcesOf e.representative).getD i 0 = r
    rw [List.getD_eq_getElem?_getD, hr, Option.getD_some]
  cases hw : p.wiring with
  | affine stride =>
    rw [hw] at hwires
    obtain ⟨a, c, ha, hc, hstride⟩ := hwires.2 rank n hrank
    refine Formula.indexes_affine hw ?_ hσ
    rw [hsources] at hc
    rw [List.headD_eq_head?_getD, hc, List.headD_eq_head?_getD, ha] at hoff
    simp only [Option.getD_some] at hoff
    rw [hget]
    linear_combination hoff + hstride
  | table t =>
    rw [hw] at hwires
    obtain ⟨rfl, hbases⟩ := hwires
    have htable : k.tables[b.tables.size + p.tables.length]? = some (net.baseTable e) :=
      hk.table (by rw [List.getElem?_append_right (le_refl _), hbases]; simp)
    have hbase : (net.baseTable e).entries[rank]? =
        some (.int ((net.sourcesOf n).headD 0 : Nat)) := by
      simp [Network.baseTable, hrank]
    have hentry := Kernel.entry?_eq htable hbase
    refine Formula.indexes_table hw hentry ?_ hσ
    have hhead : (p.site input index).sources.getD 0 0 =
        (net.sourcesOf e.representative).headD 0 := by
      change (net.sourcesOf e.representative).getD 0 0 = _
      cases net.sourcesOf e.representative <;> rfl
    rw [hget, hhead, hsources]
    linear_combination hoff

/-- A member reads its inputs from the values of the layer before. -/
theorem reads {b : Build} {k : Kernel} {p : Plan net e b.tables.size} (h : p.Member n x root)
    (ho : Arena.Ordered net.arena.nodes) (hb : net.Bounded) (hk : (p.extend b).Within k)
    {rank : Nat} (hrank : e.neurons[rank]? = some n) (hpos : x.position = e.start + rank)
    {S : Type} {I : Interpretation S} {V : List S} {input index : VarId}
    (hreads : p.recipe.ReadsInput) :
    (p.site input index).Reads k I (e.start + rank) V x.inputTy (net.reading V n) := by
  obtain ⟨l, hl, hstep⟩ := hreads
  have hty := (h.typed ho).input hl hstep
  refine ⟨fun s hs => ?_, fun s m hm => ?_⟩
  · have hin : x.isInput = true := by
      cases hin : x.isInput with
      | false => simp [Neuron.inputTy, hin, Ty.vectorOf] at hs
      | true => rfl
    simp only [Network.reading, h.neuron, hin, if_true, hpos]
  · have hin : x.isInput = false := by
      cases hin : x.isInput with
      | false => rfl
      | true => simp [Neuron.inputTy, hin] at hm
    have hlen : x.sources.length = m := by
      rw [Neuron.inputTy, hin] at hm
      simp only [Bool.false_eq_true, if_false, Ty.vectorOf, Ty.vector.injEq, Option.some.injEq,
        Nat.mod_eq_of_lt (hb.sources x (Array.mem_of_getElem? h.neuron))] at hm
      exact hm.2
    refine ⟨net.sourcePositions x, by simpa [Network.sourcePositions] using hlen, ?_, ?_⟩
    · simp [Network.reading, h.neuron, hin]
    · intro σ i q hσ hi
      have hvector : p.recipe.readsVector = true := by
        have hpositive : m ≠ 0 := by
          rintro rfl
          have := (List.getElem?_eq_some_iff.1 hi).1
          simp [Network.sourcePositions, hlen] at this
        rw [hm] at hty
        have hextent : l.extent = .vector s m := Extent.ty_injective hty.symm
        exact List.any_eq_true.2 ⟨l, hl, by simp [hstep, hextent, Extent.len, hpositive]⟩
      exact h.indexes hk hvector hrank hσ hi

theorem serves {b : Build} {k : Kernel} {p : Plan net e b.tables.size} (h : p.Member n x root)
    (ho : Arena.Ordered net.arena.nodes) (hb : net.Bounded) (hk : (p.extend b).Within k)
    {rank : Nat} (hrank : e.neurons[rank]? = some n) (hpos : x.position = e.start + rank)
    {S : Type} {I : Interpretation S} {V : List S} {input index : VarId} :
    (p.site input index).Serves k I p.recipe (e.start + rank) V (net.literalsOf n) x.inputTy
      (net.reading V n) := by
  refine ⟨fun j c hj => ⟨?_, ?_⟩, fun hreads => h.reads ho hb hk hrank hpos hreads, h.typed ho⟩
  · exact hb.literalsOf h.forward (List.mem_of_getElem? hj)
  · obtain ⟨t, ht, hc⟩ := p.tabulates.entries rank n hrank j c hj
    have htable : k.tables[b.tables.size + j]? = some t :=
      hk.table (by rw [List.getElem?_append_left (List.getElem?_eq_some_iff.1 ht).1, ht])
    rw [← p.tabulates.start t (List.mem_of_getElem? ht)]
    exact Kernel.entry?_eq htable hc

end Member

end Plan

/-- Code that appends the activations of some neurons, the first of which has the position `start`,
to the vector `output`. It reads the vector `input` and uses no variables from `n` on. -/
structure Appends (net : Network) (k : Kernel) (input output n start : Nat) (cs : List Code)
    (ns : List NeuronId) : Prop where
  runs : net.Bounded → ∀ {S : Type} (I : Interpretation S) (V as : List S) (σ : Store S)
    (slots : Nat → Option (Word S)), σ.Holds k input (.vector V) →
    σ output = some (.vector slots) → Store.Filled slots as → as.length = start →
    (∀ v, n ≤ v → σ v = none) →
    Runs (Code.execs k I cs σ) (ns.mapM fun m => net.fire I m (net.reading V m)) fun bs τ =>
      ∃ slots', τ = σ.set output (.vector slots') ∧ Store.Filled slots' (as ++ bs)
  typed : Code.AllWellTyped k.env cs ↔ ∀ m ∈ ns, net.RealForward m
  recipes : ∀ m ∈ ns, net.HasRecipe m
  inScope : ∀ defined, input ∈ defined → Code.AllScoped k defined cs

namespace Appends

variable {net : Network} {k : Kernel} {input output n n' start : Nat} {cs cs' : List Code}
  {ns ns' : List NeuronId}

theorem nil : Appends net k input output n start [] [] := by
  refine ⟨fun _ S I V as σ slots _ hslots hfilled _ _ => Runs.ok rfl ⟨slots, ?_, by simpa⟩, by
    simp [Code.AllWellTyped], by simp, fun _ _ => trivial⟩
  funext v
  by_cases hv : v = output <;> simp [hv, hslots]

theorem append (h : Appends net k input output n start cs ns)
    (h' : Appends net k input output n' (start + ns.length) cs' ns') (hn : n ≤ n')
    (hne : input ≠ output) (houtput : output < n) :
    Appends net k input output n start (cs ++ cs') (ns ++ ns') := by
  refine ⟨fun hb S I V as σ slots hV hslots hfilled has hfresh => ?_, ?_,
    List.forall_mem_append.2 ⟨h.recipes, h'.recipes⟩, fun defined hin => ?_⟩
  · rw [Code.execs_append, List.mapM_append]
    have hfirst := h.runs hb I V as σ slots hV hslots hfilled has hfresh
    cases hbs : ns.mapM fun m => net.fire I m (net.reading V m) with
    | none =>
      rw [hbs] at hfirst
      obtain ⟨v, i, hfault⟩ := hfirst
      exact ⟨v, i, by rw [hfault]; rfl⟩
    | some bs =>
      rw [hbs] at hfirst
      obtain ⟨τ, hτ, slots', rfl, hfilled'⟩ := hfirst
      have hlen : (as ++ bs).length = start + ns.length := by
        rw [List.length_append, has, (mapM_eq_some_iff.1 hbs).length_eq]
      have hrest := h'.runs hb I V (as ++ bs) (σ.set output (.vector slots')) slots'
        (hV.congr (Store.set_other _ _ hne)) (Store.set_same _ _ _) hfilled' hlen fun v hv => by
          have hv' : n ≤ v := Nat.le_trans hn hv
          rw [Store.set_other _ _ (Nat.ne_of_gt (Nat.lt_of_lt_of_le houtput hv')), hfresh v hv']
      rw [hτ]
      refine hrest.imp_pure fun bs' τ' hτ' => ?_
      obtain ⟨slots'', rfl, hfilled''⟩ := hτ'
      exact ⟨slots'', Store.set_set _ _ _ _, by simpa using hfilled''⟩
  · rw [Code.allWellTyped_append, h.typed, h'.typed, List.forall_mem_append]
  · have hrest := h'.inScope _ (Code.subset_defines defined cs hin)
    exact Code.allScoped_append.2 ⟨h.inScope defined hin, hrest⟩

end Appends

namespace Plan

variable {net : Network} {e : Ensemble}

theorem site_typed {b : Build} {k : Kernel} (p : Plan net e b.tables.size) {input n : VarId}
    {m : Option Nat} (hk : (p.extend b).Within k)
    (hn : k.vars[n]?.map Variable.ty = some .int)
    (hin : k.vars[input]?.map Variable.ty = some (.vector .real m)) :
    (p.site input n).Typed k.env ((Arena.literals net.arena.nodes p.root).map (·.2.ty)) := by
  refine ⟨Kernel.env_var hn, ⟨m, Kernel.env_var hin⟩, fun t ht => ?_, fun rank t ht => ?_⟩
  · have hwires := p.wires
    unfold Wires at hwires
    split at hwires
    · rw [show p.wiring = .table t from ht] at hwires
      obtain ⟨rfl, hbases⟩ := hwires
      have htable : k.tables[b.tables.size + p.tables.length]? = some (net.baseTable e) :=
        hk.table (by rw [List.getElem?_append_right (le_refl _), hbases]; simp)
      exact Kernel.env_table htable
    · have hw : p.wiring = .table t := ht
      rw [hwires.1] at hw
      cases hw
  · rw [← p.tabulates.types, List.getElem?_map] at ht
    obtain ⟨x, hx, rfl⟩ := Option.map_eq_some_iff.1 ht
    refine Kernel.env_table (hk.table ?_)
    rw [List.getElem?_append_left (List.getElem?_eq_some_iff.1 hx).1, hx]

/-- The loop of an ensemble appends the activations of its members. -/
theorem appends {b b' : Build} {k : Kernel} (p : Plan net e b.tables.size) (hw : net.WellFormed)
    (hc : net.Checked) (hcong : ∀ n ∈ e.others, net.Congruent n e.representative)
    (hplaced : ∀ (rank : Nat) (n : NeuronId), e.neurons[rank]? = some n →
      ∃ x, net.neurons[n]? = some x ∧ x.position = e.start + rank)
    (hg : (p.extend b).Grows b' (.int :: p.recipe.locals) (.index :: p.recipe.roles))
    (hk : b'.Within k)
    {input output width : Nat} {m : Option Nat} (hinput : input < b.vars.size)
    (houtput : output < b.vars.size) (hne : input ≠ output)
    (hin : k.vars[input]?.map Variable.ty = some (.vector .real m))
    (hout : k.vars[output]?.map Variable.ty = some (.vectorOf .real width))
    (hstop : e.stop ≤ width) (hwidth : net.Bounded → width < UInt32.size) :
    Appends net k input output b.vars.size e.start
      [Code.ensemble e (p.site input) p.recipe output b.vars.size] e.neurons := by
  have hk' := hk.of_grows hg
  obtain ⟨s, hs⟩ := (hc _ _ p.forward).2
  have hlast : (p.recipe.map (·.extent)).getLast? = some (.scalar s) := by
    obtain ⟨y, hy, hty⟩ := p.recipeOf.last
    rw [hs] at hty
    rw [hy, Extent.ty_injective (y := .scalar s) (Except.ok.inj hty).symm]
  have hlocals : ∀ (i : Nat) (t : Ty), p.recipe.locals[i]? = some t →
      k.vars[b.vars.size + 1 + i]?.map Variable.ty = some t := by
    intro i t hi
    have := hk.local_ty hg (i := i + 1) (t := t) (by simpa using hi)
    rwa [Nat.add_comm i 1, ← Nat.add_assoc] at this
  have hmember : ∀ n ∈ e.neurons, ∃ x root, p.Member n x root := fun n hn => p.member hw hc hcong hn
  have hindex : k.vars[b.vars.size]?.map Variable.ty = some .int := hk.local_ty hg (i := 0) rfl
  constructor
  · intro hb S I V as σ slots hV hslots hfilled has hfresh
    have hget : ∀ i, i < e.neurons.length → e.neurons[i]? = some (e.neurons.getD i 0) := by
      intro i hi
      rw [List.getD_eq_getElem?_getD, List.getElem?_eq_getElem hi, Option.getD_some]
    have hserves : ∀ i, i < e.neurons.length → ∃ ty, (p.site input b.vars.size).Serves k I p.recipe
        (e.start + i) V (net.literalsOf (e.neurons.getD i 0)) ty
        (net.reading V (e.neurons.getD i 0)) := by
      intro i hi
      obtain ⟨x, root, hm⟩ := hmember _ (List.mem_of_getElem? (hget i hi))
      obtain ⟨y, hy, hpos⟩ := hplaced i _ (hget i hi)
      obtain rfl : x = y := Option.some.inj (hm.neuron.symm.trans hy)
      exact ⟨_, hm.serves hw.ordered hb hk' (hget i hi) hpos⟩
    have hlength : k.length output = width := Kernel.length_vectorOf hout (hwidth hb)
    have hrun := exec_ensemble hserves ⟨s, hlast⟩ rfl rfl hinput hV hne
      houtput hslots hfilled has (by rw [hlength]; exact hstop) hfresh hlocals
    rw [Code.execs_singleton, ← mapM_range_getD]
    convert hrun using 1
    refine mapM_congr fun i hi => ?_
    obtain ⟨x, root, hm⟩ := hmember _ (List.mem_of_getElem? (hget i (List.mem_range.1 hi)))
    exact (hm.recipeOf.result_eq hw.ordered hm.forward hm.own I _).symm
  · obtain ⟨x, root, hm⟩ := hmember e.representative List.mem_cons_self
    have hreal : x.inputTy.elem = .real := by
      unfold Neuron.inputTy
      split <;> rfl
    have htyped := p.recipeOf.typed hw.ordered hm.neuron (hc _ _ p.forward).1
    rw [Code.allWellTyped_singleton, wellTyped_ensemble (p.site_typed hk' hindex hin) rfl hreal
      (fun i t hi => Kernel.env_var (hlocals i t hi)) htyped hlast (Kernel.env_var hout)]
    constructor
    · intro hs n hn
      obtain ⟨y, root', hn'⟩ := hmember n hn
      exact (hn'.realForward_iff hlast).2 hs
    · intro h
      exact (hm.realForward_iff hlast).1 (h _ List.mem_cons_self)
  · intro n hn
    obtain ⟨x, root, hm⟩ := hmember n hn
    exact ⟨root, p.recipe, hm.forward, hm.recipeOf⟩
  · intro defined hdefined
    obtain ⟨x, hx, _⟩ := Option.bind_eq_some_iff.1 p.forward
    have htyped := p.recipeOf.typed hw.ordered hx (hc _ _ p.forward).1
    have hne : p.recipe ≠ [] := by
      intro hnil
      simp [hnil] at hlast
    rw [Code.allScoped_singleton]
    apply scoped_ensemble (p.site_typed hk' hindex hin) rfl hdefined (Kernel.lt_of_ty hindex) _ hne
      htyped (Kernel.lt_of_ty hout)
    intro i hi
    exact Kernel.lt_of_ty (hlocals i _ (List.getElem?_eq_getElem hi))

end Plan

end Synapse
