import Mathlib.Tactic
import Synapse.Proofs.Arity
import Synapse.Proofs.Tables

namespace Synapse

/-- The integers of 64 bits. -/
def fit64 (n : Int) : Option Int :=
  if Int64.minValue.toInt ≤ n ∧ n ≤ Int64.maxValue.toInt then some n else none

theorem fit64_eq {n : Int} (h : |n| < 2 ^ 63) : fit64 n = some n := by
  have hbounds := abs_lt.1 h
  have hmin : Int64.minValue.toInt = -2 ^ 63 := by decide
  have hmax : Int64.maxValue.toInt = 2 ^ 63 - 1 := by decide
  rw [fit64, if_pos]
  omega

theorem abs_mul_lt {a b : Int} (ha : |a| < 2 ^ 31) (hb : |b| < 2 ^ 31) : |a * b| < 2 ^ 62 := by
  have hmul : |a| * |b| < 2 ^ 31 * 2 ^ 31 := mul_lt_mul'' ha hb (abs_nonneg a) (abs_nonneg b)
  rw [abs_mul]
  omega

namespace Wiring

/-- The position of the first member's first source. -/
def origin (bases : List (Option Int)) : Int := (bases[0]?.join).getD 0

/-- How far the first source moves from the first member to the second. -/
def stepOf (bases : List (Option Int)) : Int :=
  match bases[1]?.join with
  | some second => second - origin bases
  | none => 0

theorem stride?_eq (bases : List (Option Int)) : stride? bases =
    if bases.zipIdx.all fun q => q.1 == some (origin bases + stepOf bases * q.2)
    then some (stepOf bases) else none := rfl

/-- The move in arithmetic that gives up at integers which `fit` rejects. -/
def stepBy (fit : Int → Option Int) (bases : List (Option Int)) : Option Int :=
  match bases[1]?.join with
  | some second => fit (second - origin bases)
  | none => some 0

/-- The search for a stride in such arithmetic. -/
def strideBy (fit : Int → Option Int) (bases : List (Option Int)) : Option (Option Int) := do
  let stride ← stepBy fit bases
  let met ← bases.zipIdx.mapM fun q => do
    let way ← fit (stride * q.2)
    let here ← fit (origin bases + way)
    return q.1 == some here
  return if met.all id then some stride else none

theorem stepBy_eq {fit : Int → Option Int} {bases : List (Option Int)}
    (h : fit (stepOf bases) = some (stepOf bases)) : stepBy fit bases = some (stepOf bases) := by
  unfold stepBy
  unfold stepOf at h ⊢
  cases hsecond : bases[1]?.join with
  | none => rfl
  | some second => simpa [hsecond] using h

theorem strideBy_eq {fit : Int → Option Int} {bases : List (Option Int)}
    (hstep : fit (stepOf bases) = some (stepOf bases))
    (hway : ∀ k < bases.length, fit (stepOf bases * k) = some (stepOf bases * k) ∧
      fit (origin bases + stepOf bases * k) = some (origin bases + stepOf bases * k)) :
    strideBy fit bases = some (stride? bases) := by
  have hmet : (bases.zipIdx.mapM fun q => do
      let way ← fit (stepOf bases * q.2)
      let here ← fit (origin bases + way)
      return q.1 == some here) =
      some (bases.zipIdx.map fun q => q.1 == some (origin bases + stepOf bases * q.2)) := by
    rw [mapM_eq_some_iff, List.forall₂_map_right_iff]
    apply List.forall₂_same.2
    intro q hq
    have hlt : q.2 < bases.length :=
      (List.getElem?_eq_some_iff.1 (List.mem_zipIdx_iff_getElem?.1 hq)).1
    simp [hway q.2 hlt]
  rw [strideBy, stepBy_eq hstep, Option.bind_eq_bind, Option.bind_some, hmet, Option.bind_eq_bind,
    Option.bind_some, stride?_eq, List.all_map]
  rfl

/-- Positions below `2 ^ 31` leave room enough for the search. -/
theorem strideBy_fit64 {bases : List (Option Int)} (hlength : bases.length < 2 ^ 31)
    (h : ∀ base ∈ bases, ∀ p ∈ base, 0 ≤ p ∧ p < 2 ^ 31) :
    |stepOf bases| < 2 ^ 31 ∧ strideBy fit64 bases = some (stride? bases) := by
  have hget : ∀ (k : Nat) (p : Int), bases[k]?.join = some p → 0 ≤ p ∧ p < 2 ^ 31 := by
    intro k p hp
    have hmem := List.mem_of_getElem? (Option.join_eq_some_iff.1 hp)
    exact h _ hmem p rfl
  have horigin : 0 ≤ origin bases ∧ origin bases < 2 ^ 31 := by
    unfold origin
    cases hfirst : bases[0]?.join with
    | none => simp
    | some first => simpa using hget 0 first hfirst
  have hstep : |stepOf bases| < 2 ^ 31 := by
    unfold stepOf
    cases hsecond : bases[1]?.join with
    | none => simp
    | some second =>
      have hpos := hget 1 second hsecond
      rw [abs_lt]
      simp only
      omega
  refine ⟨hstep, strideBy_eq (fit64_eq (by omega)) ?_⟩
  intro k hk
  have hway : |stepOf bases * k| < 2 ^ 62 := by
    apply abs_mul_lt hstep
    rw [Nat.abs_cast]
    omega
  have hbounds := abs_lt.1 hway
  refine ⟨fit64_eq (by omega), fit64_eq ?_⟩
  rw [abs_lt]
  omega

end Wiring

def Literal.integer? : Literal → Option Int
  | .int n => some n
  | _ => none

namespace Formula

/-- The integer that a formula stands for when `index` holds `p`, in arithmetic that gives up at
integers which `fit` rejects. -/
def integer? (fit : Int → Option Int) (tables : Array Table) (index : VarId) (p : Int) :
    Formula → Option Int
  | literal c => c.integer?.bind fit
  | var v => if v = index then fit p else none
  | entry t x => do
    let j ← x.integer? fit tables index p
    let c ← if 0 ≤ j then tables[t]?.bind (·.get? j.toNat) else none
    c.integer?.bind fit
  | unary op x => do fit (op.onInt (← x.integer? fit tables index p))
  | binary op l r => do
    let m ← l.integer? fit tables index p
    let n ← r.integer? fit tables index p
    fit (← op.onInt? m n)
  | element _ _ | activate _ _ => none

/-- The index of a source, with its constants computed in such arithmetic. -/
def sourceIndexBy (fit : Int → Option Int) (site : Site) (i : Nat) : Option Formula :=
  let source : Int := site.sources.getD i 0
  match site.wiring with
  | .affine stride => do
    let base ← fit (source - (← fit (stride * site.start)))
    return if stride = 0 then int base
      else if base = 0 then scaledIndex site stride
      else .binary .add (int base) (scaledIndex site stride)
  | .table t => do
    let offset ← fit (source - site.sources.getD 0 0)
    return if offset = 0 then .entry t (.var site.index)
      else .binary .add (.entry t (.var site.index)) (int offset)

end Formula

namespace Site

/-- The integers that come up on the way to a source by a stride. -/
def strideWay (site : Site) (stride : Int) (i : Nat) (p : Int) : List Int :=
  let source : Int := site.sources.getD i 0
  [p, stride, stride * p, stride * site.start, source - stride * site.start,
    source - stride * site.start + stride * p]

/-- The integers that come up on the way to a source through a table. -/
def tableWay (site : Site) (first : Int) (i : Nat) (p : Int) : List Int :=
  let offset : Int := site.sources.getD i 0 - site.sources.getD 0 0
  [p, first, offset, first + offset]

/-- Only the sum at the end needs to be known: its summands may be large. -/
theorem strideWay_small {site : Site} {stride : Int} {i : Nat} {p : Int}
    (hstride : |stride| < 2 ^ 31) (hp : 0 ≤ p ∧ p < 2 ^ 31) (hstart : site.start < 2 ^ 31)
    (hsource : site.sources.getD i 0 < 2 ^ 31)
    (hsum : |site.sources.getD i 0 - stride * site.start + stride * p| < 2 ^ 31) :
    ∀ v ∈ site.strideWay stride i p, |v| < 2 ^ 63 := by
  have hway : |stride * p| < 2 ^ 62 := abs_mul_lt hstride (by rw [abs_lt]; omega)
  have hback : |stride * site.start| < 2 ^ 62 := abs_mul_lt hstride (by rw [abs_lt]; omega)
  intro v hv
  simp only [strideWay, List.mem_cons, List.not_mem_nil, or_false] at hv
  rw [abs_lt] at hstride hway hback hsum ⊢
  rcases hv with rfl | rfl | rfl | rfl | rfl | rfl <;> omega

theorem tableWay_small {site : Site} {first : Int} {i : Nat} {p : Int} (hp : 0 ≤ p ∧ p < 2 ^ 31)
    (hfirst : 0 ≤ first ∧ first < 2 ^ 31) (hsource : site.sources.getD i 0 < 2 ^ 31)
    (hsource₀ : site.sources.getD 0 0 < 2 ^ 31) :
    ∀ v ∈ site.tableWay first i p, |v| < 2 ^ 63 := by
  intro v hv
  simp only [tableWay, List.mem_cons, List.not_mem_nil, or_false] at hv
  rw [abs_lt]
  rcases hv with rfl | rfl | rfl | rfl <;> omega

end Site

namespace Formula

variable {fit : Int → Option Int} {tables : Array Table} {site : Site} {p : Int} {i : Nat}

theorem integer?_int (n : Int) (index : VarId) :
    (int n).integer? fit tables index p = fit n := rfl

theorem integer?_index (v : VarId) : (var v).integer? fit tables v p = fit p := if_pos rfl

theorem integer?_binary {index : VarId} {l r : Formula} {op : Binary} {m n v : Int}
    (hl : l.integer? fit tables index p = some m) (hr : r.integer? fit tables index p = some n)
    (hop : op.onInt? m n = some v) : (binary op l r).integer? fit tables index p = fit v := by
  simp [integer?, hl, hr, hop]

theorem integer?_scaledIndex {stride : Int} (hp : fit p = some p)
    (hstride : fit stride = some stride) (hway : fit (stride * p) = some (stride * p)) :
    (scaledIndex site stride).integer? fit tables site.index p = some (stride * p) := by
  unfold scaledIndex
  split
  · rename_i hone
    rw [integer?_index, hp, hone, one_mul]
  · have hindex : (var site.index).integer? fit tables site.index p = some p := by
      rw [integer?_index, hp]
    have hfactor : (int stride).integer? fit tables site.index p = some stride := hstride
    rw [integer?_binary hfactor hindex rfl, hway]

/-- By a stride the index is as far from the first member's source as the members are apart. -/
theorem sourceIndex_affine (tables : Array Table) {stride : Int} (hw : site.wiring = .affine stride)
    (hfit : ∀ v ∈ site.strideWay stride i p, fit v = some v) :
    sourceIndexBy fit site i = some (sourceIndex site i) ∧
      (sourceIndex site i).integer? fit tables site.index p =
        some (site.sources.getD i 0 - stride * site.start + stride * p) := by
  simp only [Site.strideWay, List.forall_mem_cons] at hfit
  obtain ⟨hp, hstride, hway, hstart, hbase, hresult, _⟩ := hfit
  have hscaled : (scaledIndex site stride).integer? fit tables site.index p = some (stride * p) :=
    integer?_scaledIndex hp hstride hway
  constructor
  · simp only [sourceIndexBy, sourceIndex, hw, hstart, hbase, Option.bind_eq_bind, Option.bind_some]
    rfl
  · simp only [sourceIndex, hw]
    split_ifs with hzero hbase0
    · rw [integer?_int, hbase, hzero]
      simp
    · rw [hscaled, hbase0, zero_add]
    · rw [integer?_binary (by rw [integer?_int, hbase]) hscaled rfl, hresult]

/-- Through a table the index is the member's first source and the offset from it. -/
theorem sourceIndex_table {t : TableId} (hw : site.wiring = .table t) {first : Int} (hp : 0 ≤ p)
    (hentry : tables[t]?.bind (·.get? p.toNat) = some (.int first))
    (hfit : ∀ v ∈ site.tableWay first i p, fit v = some v) :
    sourceIndexBy fit site i = some (sourceIndex site i) ∧
      (sourceIndex site i).integer? fit tables site.index p =
        some (first + (site.sources.getD i 0 - site.sources.getD 0 0)) := by
  simp only [Site.tableWay, List.forall_mem_cons] at hfit
  obtain ⟨hfitp, hfirst, hoffset, hresult, _⟩ := hfit
  have hread : (entry t (var site.index)).integer? fit tables site.index p = some first := by
    simp [integer?, hfitp, hp, hentry, Literal.integer?, hfirst]
  constructor
  · simp only [sourceIndexBy, sourceIndex, hw, hoffset, Option.bind_eq_bind, Option.bind_some]
    rfl
  · simp only [sourceIndex, hw]
    split_ifs with hzero
    · rw [hread, hzero, add_zero]
    · rw [integer?_binary hread (by rw [integer?_int, hoffset]) rfl, hresult]

end Formula

namespace Network

variable {net : Network} {e : Ensemble} {l : LayerId} {p : Nat} {es : List Ensemble}
  {ns : List NeuronId}

/-- Layers whose positions have 31 bits. -/
def Narrow (net : Network) : Prop := ∀ layer ∈ net.layers, layer.neurons.length < 2 ^ 31

instance (net : Network) : Decidable net.Narrow :=
  inferInstanceAs (Decidable (∀ layer ∈ net.layers, layer.neurons.length < 2 ^ 31))

/-- In arithmetic with `fit`, the index that is emitted at a site leads each member to its own
sources: the loop runs at the position of the member and reads at the position of the source. More
tables may follow those that are given. -/
def Leads (net : Network) (e : Ensemble) (fit : Int → Option Int) (site : Site)
    (tables : Array Table) : Prop :=
  ∀ (k : Nat) (n : NeuronId) (x y : Neuron) (i : Nat) (source : NeuronId),
    e.neurons[k]? = some n → net.neurons[n]? = some x →
    x.sources[i]? = some source → net.neurons[source]? = some y →
    x.position = e.start + k ∧ ∀ (b : Build) (more : Array Table), ∃ φ,
      formulaOf (Emit.sourceIndex site i b).2.nodes (Emit.sourceIndex site i b).1 = some φ ∧
      Formula.sourceIndexBy fit site i = some φ ∧
      φ.integer? fit (tables ++ more) site.index x.position = some (y.position : Int)

/-- Where the members of an ensemble stand among the neurons that the ensembles cover. -/
theorem Tiles.place (h : net.Tiles l p es ns) (he : e ∈ es) {k : Nat} {n : NeuronId}
    (hk : e.neurons[k]? = some n) : ∃ j, e.start = p + j ∧ ns[j + k]? = some n := by
  have hlt : k < e.neurons.length := (List.getElem?_eq_some_iff.1 hk).1
  induction h with
  | nil => cases he
  | @cons first es ns _ _ _ ih =>
    rcases List.mem_cons.1 he with rfl | he
    · exact ⟨0, rfl, by rw [Nat.zero_add, List.getElem?_append_left hlt, hk]⟩
    · obtain ⟨j, hj, hget⟩ := ih he
      refine ⟨first.neurons.length + j, ?_, ?_⟩
      · rw [hj, Ensemble.stop, Nat.add_assoc]
      · rw [List.getElem?_append_right (by omega), ← hget]
        congr 1
        omega

theorem Tiles.length_le (h : net.Tiles l p es ns) (he : e ∈ es) :
    e.neurons.length ≤ ns.length := by
  induction h with
  | nil => cases he
  | cons _ _ _ ih =>
    rcases List.mem_cons.1 he with rfl | he
    · simp
    · have := ih he
      simp
      omega

/-- The member of rank `k` stands `k` positions after the first. -/
theorem WellFormed.member_position (hw : net.WellFormed) {layer : Layer}
    (hl : net.layers[l]? = some layer) (ht : net.Tiles l 0 es layer.neurons) (he : e ∈ es) {k : Nat}
    {n : NeuronId} (hk : e.neurons[k]? = some n) {x : Neuron} (hx : net.neurons[n]? = some x) :
    x.position = e.start + k := by
  obtain ⟨j, hj, hget⟩ := ht.place he hk
  obtain ⟨y, hy, _, hposition⟩ := hw.placed l layer _ n hl hget
  obtain rfl : x = y := Option.some.inj (hx.symm.trans hy)
  omega

theorem Narrow.position_lt (hn : net.Narrow) (hw : net.WellFormed) {n : NeuronId} {x : Neuron}
    (hx : net.neurons[n]? = some x) : x.position < 2 ^ 31 := by
  obtain ⟨layer, hl, hget⟩ := hw.listed n x hx
  have hlt : x.position < layer.neurons.length := (List.getElem?_eq_some_iff.1 hget).1
  exact hlt.trans (hn layer (Array.mem_of_getElem? hl))

theorem positionOf_eq {n : NeuronId} {x : Neuron} (hx : net.neurons[n]? = some x) :
    net.positionOf n = x.position := by
  simp [positionOf, hx]

/-- The positions of a neuron's sources are those of neurons. -/
theorem WellFormed.of_mem_sourcesOf (hw : net.WellFormed) {n : NeuronId} {q : Nat}
    (hq : q ∈ net.sourcesOf n) :
    ∃ (source : NeuronId) (y : Neuron), net.neurons[source]? = some y ∧ q = y.position := by
  unfold sourcesOf at hq
  split at hq
  · rename_i x hx
    obtain ⟨source, hsource, rfl⟩ := List.mem_map.1 hq
    obtain ⟨y, hy⟩ := hw.sourced n x hx source hsource
    exact ⟨source, y, hy, positionOf_eq hy⟩
  · cases hq

theorem Narrow.source_lt (hn : net.Narrow) (hw : net.WellFormed) {n : NeuronId} {q : Nat}
    (hq : q ∈ net.sourcesOf n) : q < 2 ^ 31 := by
  obtain ⟨source, y, hy, rfl⟩ := hw.of_mem_sourcesOf hq
  exact hn.position_lt hw hy

theorem Narrow.first_lt (hn : net.Narrow) (hw : net.WellFormed) (n : NeuronId) :
    (net.sourcesOf n).headD 0 < 2 ^ 31 := by
  cases hsources : net.sourcesOf n with
  | nil => simp
  | cons q qs => exact hn.source_lt hw (n := n) (by simp [hsources])

/-- The sources of a member lie where those of the representative do, seen from the first. -/
theorem offset_of_member (hcong : ∀ n ∈ e.others, net.Congruent n e.representative) {n : NeuronId}
    (hn : n ∈ e.neurons) {i q : Nat} (hi : (net.sourcesOf n)[i]? = some q) :
    ∃ r, (net.sourcesOf e.representative)[i]? = some r ∧
      (q : Int) - (net.sourcesOf n).headD 0 = r - (net.sourcesOf e.representative).headD 0 := by
  apply offsets_getElem? _ hi
  rcases List.mem_cons.1 hn with rfl | hn
  · rfl
  · obtain ⟨x, y, _, _, hx, hy, _, _, _, hoff, _⟩ := hcong n hn
    rw [sourcesOf_eq hx, sourcesOf_eq hy, hoff]

/-- The search for the stride of an ensemble stays within 64 bits. -/
theorem Narrow.strideBy_eq (hn : net.Narrow) (hw : net.WellFormed) {layer : Layer}
    (hl : net.layers[l]? = some layer) (ht : net.Tiles l 0 es layer.neurons) (he : e ∈ es) :
    (∀ stride, net.stride? e = some stride → |stride| < 2 ^ 31) ∧
      Wiring.strideBy fit64 (e.neurons.map fun n => (net.sourcesOf n).head?.map Int.ofNat) =
        some (net.stride? e) := by
  set bases := e.neurons.map fun n => (net.sourcesOf n).head?.map Int.ofNat with hbases
  have hlength : bases.length < 2 ^ 31 := by
    have hle := ht.length_le he
    have hlt := hn layer (Array.mem_of_getElem? hl)
    simp only [hbases, List.length_map]
    omega
  have hpositions : ∀ base ∈ bases, ∀ p ∈ base, 0 ≤ p ∧ p < 2 ^ 31 := by
    intro base hbase p hp
    obtain ⟨n, _, rfl⟩ := List.mem_map.1 hbase
    obtain ⟨q, hq, rfl⟩ := Option.map_eq_some_iff.1 hp
    have hlt := hn.source_lt hw (List.mem_of_head? hq)
    simp only [Int.ofNat_eq_natCast]
    omega
  obtain ⟨hstep, hsearch⟩ := Wiring.strideBy_fit64 hlength hpositions
  refine ⟨fun stride hstride => ?_, hsearch⟩
  rw [stride?, ← hbases, Wiring.stride?_eq] at hstride
  rwa [← Option.some.inj (Option.ite_none_right_eq_some.1 hstride).2]

/-- A site that was made for an ensemble leads its members to their sources. -/
theorem Ready.leads (hr : net.Ready) {layer : Layer} (hl : net.layers[l]? = some layer)
    (ht : net.Tiles l 0 es layer.neurons) (he : e ∈ es)
    (hreads : (net.recipe e.representative).readsVector = true) {site : Site} {next : TableId}
    {tables : Array Table} (hstart : site.start = e.start)
    (hsources : site.sources = net.sourcesOf e.representative)
    (hwiring : site.wiring = net.wiring e next)
    (htable : net.stride? e = none → tables[next]? = some (net.baseTable e))
    {fit : Int → Option Int} (hfit : ∀ v : Int, (net.Narrow → |v| < 2 ^ 63) → fit v = some v) :
    net.Leads e fit site tables := by
  have hw := hr.wellFormed
  intro k n x y i source hk hx hsource hy
  have hposition : x.position = e.start + k := hw.member_position hl ht he hk hx
  have hi : (net.sourcesOf n)[i]? = some y.position := by
    rw [sourcesOf_eq hx, sourcePositions, List.getElem?_map, hsource, Option.map_some,
      positionOf_eq hy]
  obtain ⟨r, hri, hoff⟩ := offset_of_member (ht.congruent he) (List.mem_of_getElem? hk) hi
  have hget : site.sources.getD i 0 = r := by simp [hsources, hri]
  have hget₀ : site.sources.getD 0 0 = (net.sourcesOf e.representative).headD 0 := by
    rw [hsources]
    cases net.sourcesOf e.representative <;> rfl
  refine ⟨hposition, fun b more =>
    ⟨Formula.sourceIndex site i, (Emit.emits_sourceIndex b site i).holds, ?_⟩⟩
  cases hstride : net.stride? e with
  | some stride =>
    have hsite : site.wiring = .affine stride := by simp [hwiring, wiring, hreads, hstride]
    obtain ⟨first, hfirst⟩ := stride?_eq_some hstride
    obtain ⟨a, ha, hfa⟩ := hfirst 0 e.representative rfl
    obtain ⟨c, hc, hfc⟩ := hfirst k n hk
    rw [List.headD_eq_head?_getD, hc, List.headD_eq_head?_getD, ha] at hoff
    simp only [Option.getD_some] at hoff
    have hresult : (r : Int) - stride * e.start + stride * x.position = y.position := by
      rw [hposition]
      push_cast at hfa hfc ⊢
      linear_combination -hoff + hfa - hfc
    have hway : ∀ v ∈ site.strideWay stride i x.position, fit v = some v := by
      intro v hv
      apply hfit
      intro hnarrow
      have hplace := hnarrow.position_lt hw hx
      have hsum := hnarrow.position_lt hw hy
      have hstride' := (hnarrow.strideBy_eq hw hl ht he).1 stride hstride
      refine Site.strideWay_small hstride' ⟨by omega, by omega⟩ ?_ ?_ ?_ v hv
      · omega
      · rw [hget]
        exact hnarrow.source_lt hw (List.mem_of_getElem? hri)
      · rw [hget, hstart, hresult, Nat.abs_cast]
        omega
    have hindex := Formula.sourceIndex_affine (tables ++ more) hsite hway
    rwa [hget, hstart, hresult] at hindex
  | none =>
    have hsite : site.wiring = .table next := by simp [hwiring, wiring, hreads, hstride]
    have hentry : (tables ++ more)[next]?.bind (·.get? x.position) =
        some (.int ((net.sourcesOf n).headD 0 : Nat)) := by
      have hnext := htable hstride
      have hlt : next < tables.size := (Array.getElem?_eq_some_iff.1 hnext).1
      rw [Array.getElem?_append_left hlt, hnext, hposition]
      simp [baseTable, Table.get?, hk]
    have hway : ∀ v ∈ site.tableWay ((net.sourcesOf n).headD 0) i x.position, fit v = some v := by
      intro v hv
      apply hfit
      intro hnarrow
      have hplace := hnarrow.position_lt hw hx
      have hfirst := hnarrow.first_lt hw n
      refine Site.tableWay_small ⟨by omega, by omega⟩ ⟨by omega, by omega⟩ ?_ ?_ v hv
      · rw [hget]
        exact hnarrow.source_lt hw (List.mem_of_getElem? hri)
      · rw [hget₀]
        exact hnarrow.first_lt hw e.representative
    have hindex := Formula.sourceIndex_table hsite (Int.natCast_nonneg _) hentry hway
    have hresult : ((net.sourcesOf n).headD 0 : Int) +
        (r - (net.sourcesOf e.representative).headD 0) = y.position := by
      linear_combination -hoff
    rwa [hget, hget₀, hresult] at hindex

end Network

/-- A neuron with sources that reads its inputs reads a vector that is not empty. -/
theorem Network.Ready.readsVector {net : Network} (hr : net.Ready) {n : NeuronId} {x : Neuron}
    (hx : net.neurons[n]? = some x) (hpos : 0 < x.sources.length)
    (hlt : x.sources.length < UInt32.size) (hreads : net.readsInput n = true) :
    ∃ root, net.forward? n = some root ∧ (net.recipe n).readsVector = true := by
  cases hroot : net.forward? n with
  | none => simp [Network.readsInput, hroot] at hreads
  | some root =>
    obtain ⟨id, hreach, hid⟩ := Network.exists_input_of_readsInput hroot hreads
    have hkind : x.isInput = false := by
      by_contra hin
      have hnil := hr.built.inputs n x hx (by simpa using hin)
      simp [hnil] at hpos
    have htype := typeOf_input hr.wellFormed.ordered hid hx
    have hvector : net.ReadsVector root := by
      refine ⟨id, n, .real, x.sources.length, hreach, hid, ?_, hpos⟩
      rw [htype, Neuron.inputTy, hkind]
      simp [Ty.vectorOf, Nat.mod_eq_of_lt hlt]
    obtain ⟨_, hs⟩ := (hr.checked n root hroot).2
    obtain ⟨r, hrecipe⟩ := exists_recipe hr.wellFormed hr.built hs
    rw [hrecipe.recipe_eq hroot, hrecipe.readsVector_iff]
    exact ⟨root, rfl, hvector⟩

/-- Where the representative of an ensemble has sources and reads them, each index that is emitted
leads every member to its own sources. In layers of fewer than `2 ^ 31` neurons neither the search
for a stride nor the constants nor the index itself leave 64 bits. -/
theorem emitted_index_exact {s : Session} (hs : s.Reachable)
    (hcheck : Pass.check.result s = .ok ()) {l : LayerId} {es : List Ensemble}
    (hes : (Pass.collect l).result s = .ok es) {e : Ensemble} (he : e ∈ es) {x : Neuron}
    (hx : s.net.neurons[e.representative]? = some x) (hpos : 0 < x.sources.length)
    (hlt : x.sources.length < UInt32.size) (hreads : s.net.readsInput e.representative = true)
    (input output : VarId) (b : Build) :
    ∃ (site : VarId → Site) (recipe : Recipe) (tables : Array Table),
      (Pass.lowerEnsemble e input output b).result s =
        .ok (Emit.ensemble e site recipe output { b with tables }).swap ∧
      (∀ index, s.net.Leads e some (site index) tables) ∧
      (s.net.Narrow →
        (∃ bases, (Pass.firstSources e).result s = .ok bases ∧
          Wiring.strideBy fit64 bases = some (Wiring.stride? bases)) ∧
        ∀ index, s.net.Leads e fit64 (site index) tables) := by
  have hr := hs.ready hcheck
  have hw := hr.wellFormed
  obtain ⟨layer, hl, ht⟩ := (Pass.Answers.collect hw l).result hw es hes
  obtain ⟨root, hroot, hvector⟩ := hr.readsVector hx hpos hlt hreads
  have hlower := (Pass.Answers.loweringEnsemble hr (ht.congruent he) hx input output b).result hw
  simp only [Network.loweringEnsemble, Network.gap?_eq_none hroot] at hlower
  set tables := b.tables ++ (s.net.literalTables e ++ s.net.baseTables e).toArray with htables
  have htable : s.net.stride? e = none →
      tables[b.tables.size + (s.net.literalTables e).length]? = some (s.net.baseTable e) := by
    intro hnone
    have hbases : s.net.baseTables e = [s.net.baseTable e] := by
      simp [Network.baseTables, hvector, hnone]
    simp [htables, hbases]
  have hmembers : ∀ n ∈ e.neurons, ∃ x, s.net.neurons[n]? = some x := by
    intro n hn
    obtain ⟨y, hy, _⟩ := hw.neuron_of_mem hl (ht.mem he hn)
    exact ⟨y, hy⟩
  refine ⟨_, _, tables, hlower, ?_, ?_⟩
  · intro index
    exact hr.leads hl ht he hvector rfl rfl rfl htable fun _ _ => rfl
  · intro hnarrow
    refine ⟨⟨_, (Pass.Returns.firstSources hw hmembers).result hw, ?_⟩, ?_⟩
    · exact (hnarrow.strideBy_eq hw hl ht he).2
    · intro index
      exact hr.leads hl ht he hvector rfl rfl rfl htable fun _ hsmall => fit64_eq (hsmall hnarrow)

/-- A window that moves down and reads one source twice, and after it three neurons with one source
each, for which there is no stride. Neither ensemble starts at the first position. -/
def windows : Session := .ofRequests [
  .addLayer, .addNeuron 0 .input, .addNeuron 0 .input, .addNeuron 0 .input, .addNeuron 0 .input,
  .addNeuron 0 .input, .addLayer, .addNeuron 1 .hidden, .addNeuron 1 .hidden,
  .addNeuron 1 .hidden, .addNeuron 1 .hidden, .addNeuron 1 .output, .addNeuron 1 .output,
  .addNeuron 1 .output,
  .connectLayers 0 1 fun p =>
    [[], [4, 3, 4], [3, 2, 3], [2, 1, 2], [0], [3], [1]][p]?,
  .setForward 5 { above := [.literal (.int 5)], last := .literal (.real ⟨2⟩) },
  .setForward 6 { above := [.input 6], last := .reduce .max 0 },
  .setForward 7 { above := [.input 7], last := .reduce .max 0 },
  .setForward 8 { above := [.input 8], last := .reduce .max 0 },
  .setForward 9 { above := [.input 9], last := .reduce .sum 0 },
  .setForward 10 { above := [.input 10], last := .reduce .sum 0 },
  .setForward 11 { above := [.input 11], last := .reduce .sum 0 }]

theorem windows_index_exact : windows.Reachable ∧ windows.net.Narrow ∧
    ∃ e₁ e₂ : Ensemble, (Pass.collect 1).result windows = .ok
        [⟨1, 0, 5, []⟩, e₁, e₂] ∧ e₁ = ⟨1, 1, 6, [7, 8]⟩ ∧ e₂ = ⟨1, 4, 9, [10, 11]⟩ ∧
      windows.net.stride? e₁ = some (-1) ∧ windows.net.stride? e₂ = none ∧
      ∀ e ∈ [e₁, e₂], ∀ (input output : VarId) (b : Build),
        ∃ (site : VarId → Site) (recipe : Recipe) (tables : Array Table),
          (Pass.lowerEnsemble e input output b).result windows =
            .ok (Emit.ensemble e site recipe output { b with tables }).swap ∧
          (∀ index, windows.net.Leads e some (site index) tables) ∧
          (∃ bases, (Pass.firstSources e).result windows = .ok bases ∧
            Wiring.strideBy fit64 bases = some (Wiring.stride? bases)) ∧
          ∀ index, windows.net.Leads e fit64 (site index) tables := by
  have hs : windows.Reachable := Session.reachable_ofRequests _
  have hcheck : Pass.check.result windows = .ok () := by decide +kernel
  have hnarrow : windows.net.Narrow := by decide +kernel
  have hes : (Pass.collect 1).result windows = .ok
      [⟨1, 0, 5, []⟩, ⟨1, 1, 6, [7, 8]⟩, ⟨1, 4, 9, [10, 11]⟩] := by decide +kernel
  have hmembers : ∀ e ∈ ([⟨1, 1, 6, [7, 8]⟩, ⟨1, 4, 9, [10, 11]⟩] : List Ensemble),
      windows.net.readsInput e.representative = true ∧
      ∃ x ∈ windows.net.neurons[e.representative]?, 0 < x.sources.length ∧
        x.sources.length < UInt32.size := by decide +kernel
  refine ⟨hs, hnarrow, _, _, hes, rfl, rfl, by decide +kernel, by decide +kernel, ?_⟩
  intro e he input output b
  obtain ⟨hreads, x, hx, hpos, hlt⟩ := hmembers e he
  obtain ⟨site, recipe, tables, hlower, hexact, hsmall⟩ := emitted_index_exact hs hcheck hes
    (List.mem_cons_of_mem _ he) hx hpos hlt hreads input output b
  exact ⟨site, recipe, tables, hlower, hexact, hsmall hnarrow⟩

end Synapse
