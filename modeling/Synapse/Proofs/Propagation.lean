import Mathlib.Tactic
import Synapse.Proofs.Layers

namespace Synapse

section

variable {S : Type} {I : Interpretation S} {literals : List Literal} {ty : Ty}
  {input : Option (Datum S)}

theorem fits_getElem? {ds : List (Datum S)} {done : List Extent}
    (h : List.Forall₂ Datum.Fits ds done) {x : Nat} {extent : Extent}
    (hx : done[x]? = some extent) : ∃ d, ds[x]? = some d ∧ d.Fits extent :=
  forall₂_getElem? h.flip hx

/-- A typed step has a value of its type, if the inputs are there where it reads them. -/
theorem Line.value_fits {l : Line} {ds : List (Datum S)} {done : List Extent}
    (h : l.Typed (literals.map Literal.ty) ty done) (hds : List.Forall₂ Datum.Fits ds done)
    (hbound : ∀ c ∈ literals, c.Bounded)
    (hinput : l.step = .input → ∃ d, input = some d ∧ ∀ x : Extent, ty = x.ty → d.Fits x) :
    ∃ d, l.step.value I literals input ds = some d ∧ d.Fits l.extent := by
  obtain ⟨step, extent⟩ := l
  cases step with
  | literal rank =>
    change (literals.map Literal.ty)[rank]? = some extent.ty at h
    rw [List.getElem?_map] at h
    obtain ⟨c, hc, hty⟩ := Option.map_eq_some_iff.1 h
    exact ⟨I.literal c, by simp [Step.value, hc], (hbound c (List.mem_of_getElem? hc)).fits hty⟩
  | unary op x =>
    obtain ⟨d, hd, hfits⟩ := fits_getElem? hds h
    exact ⟨d.map (I.unary op), by simp [Step.value, hd], hfits.map _⟩
  | binary op x y =>
    obtain ⟨a, b, ha, hb, hjoin⟩ := h
    obtain ⟨d, hd, hfits⟩ := fits_getElem? hds ha
    obtain ⟨e, he, hfits'⟩ := fits_getElem? hds hb
    exact ⟨d.zip (I.binary op) e, by simp [Step.value, hd, he], hfits.zip hfits' hjoin _⟩
  | input =>
    obtain ⟨d, hd, hfits⟩ := hinput rfl
    exact ⟨d, hd, hfits extent h⟩
  | reduce kind x =>
    obtain ⟨s, n, hx, hextent⟩ := h
    obtain rfl : extent = .scalar s := hextent
    obtain ⟨d, hd, hfits⟩ := fits_getElem? hds hx
    obtain ⟨a, as, rfl, _⟩ := hfits.eq_cons
    exact ⟨.scalar (as.foldl (I.binary kind.operator) a),
      by simp only [Step.value, hd, Option.bind_some, Datum.fold], trivial⟩
  | activate name x =>
    obtain ⟨s, hx, hextent⟩ := h
    obtain rfl : extent = .scalar s := hextent
    obtain ⟨d, hd, hfits⟩ := fits_getElem? hds hx
    obtain ⟨a, rfl⟩ := hfits.eq_scalar
    exact ⟨.scalar (I.activate name a), by simp [Step.value, hd, Datum.scalar?], trivial⟩

theorem Recipe.values_fits {r : Recipe} {ds : List (Datum S)} {done : List Extent}
    (h : r.Typed (literals.map Literal.ty) ty done) (hds : List.Forall₂ Datum.Fits ds done)
    (hbound : ∀ c ∈ literals, c.Bounded)
    (hinput : r.ReadsInput → ∃ d, input = some d ∧ ∀ x : Extent, ty = x.ty → d.Fits x) :
    ∃ all, r.values I literals input ds = some all ∧
      List.Forall₂ Datum.Fits all (done ++ r.map (·.extent)) := by
  induction r generalizing ds done with
  | nil => exact ⟨ds, rfl, by simpa using hds⟩
  | cons l rest ih =>
    obtain ⟨hl, hrest⟩ := h
    obtain ⟨d, hd, hfits⟩ := Line.value_fits (I := I) hl hds hbound
      fun hstep => hinput ⟨l, by simp, hstep⟩
    have hinput' : Recipe.ReadsInput rest →
        ∃ d, input = some d ∧ ∀ x : Extent, ty = x.ty → d.Fits x := by
      rintro ⟨l', hl', hstep⟩
      exact hinput ⟨l', by simp [hl'], hstep⟩
    obtain ⟨all, hall, hfits'⟩ := ih hrest (List.rel_append hds (.cons hfits .nil)) hinput'
    exact ⟨all, by simp [Recipe.values, hd, hall], by simpa using hfits'⟩

theorem Recipe.values_eq_none {r : Recipe} {ds : List (Datum S)} (h : r.ReadsInput) :
    r.values I literals none ds = none := by
  induction r generalizing ds with
  | nil =>
    obtain ⟨l, hl, _⟩ := h
    cases hl
  | cons l rest ih =>
    obtain ⟨l', hl', hstep⟩ := h
    rcases List.mem_cons.1 hl' with rfl | hl'
    · simp [Recipe.values, hstep, Step.value]
    · rw [Recipe.values]
      cases l.step.value I literals none ds with
      | none => rfl
      | some d => exact ih ⟨l', hl', hstep⟩

/-- A recipe that ends in a number has a result exactly if the inputs are there or not read. -/
theorem Recipe.result_isSome {r : Recipe} (h : r.Typed (literals.map Literal.ty) ty [])
    (hr : r.GivesScalar) (hbound : ∀ c ∈ literals, c.Bounded)
    (hfits : ∀ d, input = some d → ∀ x : Extent, ty = x.ty → d.Fits x) :
    (∃ a, r.result I literals input = some a) ↔ (r.ReadsInput → ∃ d, input = some d) := by
  constructor
  · rintro ⟨a, ha⟩ hreads
    cases input with
    | none => simp [Recipe.result, Recipe.values_eq_none hreads] at ha
    | some d => exact ⟨d, rfl⟩
  · intro hinput
    obtain ⟨all, hall, hall'⟩ := Recipe.values_fits (I := I) h .nil hbound fun hreads => by
      obtain ⟨d, hd⟩ := hinput hreads
      exact ⟨d, hd, hfits d hd⟩
    obtain ⟨s, hs⟩ := hr
    obtain ⟨d, hd, hfits⟩ := forall₂_getLast? hall'.flip (by simpa using hs)
    obtain ⟨a, rfl⟩ := Datum.Fits.eq_scalar hfits
    exact ⟨a, by simp [Recipe.result, hall, hd, Datum.scalar?]⟩

end

theorem Node.step?_eq_input {n : Node} {place : NodeId → Nat} {rank : Nat} :
    n.step? place rank = some .input ↔ ∃ m, n = .input m := by
  cases n with
  | binary op l r => cases op <;> simp [step?]
  | _ => simp [step?]

theorem RecipeOf.readsInput_iff {net : Network} {root : NodeId} {r : Recipe}
    (h : RecipeOf net root r) {n : NeuronId} (hown : ReadsOwn net.arena.nodes n root) :
    r.ReadsInput ↔ n ∈ Arena.inputNeurons net.arena.nodes root := by
  rw [mem_inputNeurons]
  constructor
  · rintro ⟨l, hl, hstep⟩
    obtain ⟨i, hi⟩ := List.mem_iff_getElem?.1 hl
    obtain ⟨id, hid, ⟨m, hm, hline⟩, _⟩ := forall₂_getElem? h.flip hi
    have hreach : (Arena.dag net.arena.nodes).Reaches root id :=
      Dag.mem_postorder.1 (List.mem_of_getElem? hid)
    rw [hstep] at hline
    obtain ⟨k, rfl⟩ := Node.step?_eq_input.1 hline
    obtain rfl : k = n := hown id k hreach hm
    exact ⟨id, hreach, hm⟩
  · rintro ⟨id, hreach, hid⟩
    obtain ⟨i, hi⟩ := List.mem_iff_getElem?.1 (Dag.mem_postorder.2 hreach)
    obtain ⟨l, hl, ⟨m, hm, hline⟩, _⟩ := forall₂_getElem? h hi
    obtain rfl : m = .input n := by simpa [hm] using hid
    exact ⟨l, List.mem_of_getElem? hl, (Option.some.inj hline).symm⟩

namespace Network

variable {S : Type} {net : Network} {n : NeuronId} {x : Neuron}

/-- The positions in the layer before from which a neuron reads. An input neuron reads at its own
position. -/
def readPositions (net : Network) (n : NeuronId) : List Nat :=
  match net.neurons[n]? with
  | none => []
  | some x => if x.isInput then [x.position] else net.sourcePositions x

/-- Whether the expression of a neuron reads its inputs. -/
def readsInput (net : Network) (n : NeuronId) : Bool :=
  match net.forward? n with
  | none => false
  | some root => (Arena.inputNeurons net.arena.nodes root).contains n

theorem reading_isSome (hx : net.neurons[n]? = some x) (V : List S) :
    (∃ d, net.reading V n = some d) ↔ ∀ p ∈ net.readPositions n, p < V.length := by
  have hget : ∀ p : Nat, (∃ a, V[p]? = some a) ↔ p < V.length := by
    intro p
    rw [← Option.isSome_iff_exists, isSome_getElem?]
  simp only [reading, readPositions, hx]
  split
  · simp [Option.map_eq_some_iff, hget]
  · rw [← forall₂_congr fun p (_ : p ∈ net.sourcePositions x) => hget p, ← exists_mapM_eq_some]
    simp [Option.map_eq_some_iff]

theorem reading_fits (hb : net.Bounded) (hx : net.neurons[n]? = some x) {V : List S} {d : Datum S}
    (hd : net.reading V n = some d) {extent : Extent} (h : x.inputTy = extent.ty) :
    d.Fits extent := by
  simp only [reading, hx] at hd
  split at hd
  · rename_i hin
    obtain ⟨a, _, rfl⟩ := Option.map_eq_some_iff.1 hd
    rw [Neuron.inputTy, if_pos hin] at h
    rw [Extent.ty_injective (x := extent) (y := .scalar .real) h.symm]
    trivial
  · rename_i hin
    obtain ⟨as, has, rfl⟩ := Option.map_eq_some_iff.1 hd
    have hsources := hb.sources x (Array.mem_of_getElem? hx)
    rw [Neuron.inputTy, if_neg hin, Ty.vectorOf, Nat.mod_eq_of_lt hsources] at h
    rw [Extent.ty_injective (x := extent) (y := .vector .real x.sources.length) h.symm]
    have hlen := (mapM_eq_some_iff.1 has).length_eq
    simpa [Datum.Fits, sourcePositions] using hlen.symm

/-- A neuron has an activation exactly if all that it reads is there. -/
theorem fire_isSome (ho : Arena.Ordered net.arena.nodes) (hb : net.Bounded) (hc : net.Checked)
    (hr : net.HasRecipe n) (hx : net.neurons[n]? = some x) (I : Interpretation S) (V : List S) :
    (∃ a, net.fire I n (net.reading V n) = some a) ↔
      (net.readsInput n = true → ∀ p ∈ net.readPositions n, p < V.length) := by
  obtain ⟨root, r, hroot, hrecipe⟩ := hr
  obtain ⟨hown, s, hs⟩ := hc n root hroot
  have hscalar : r.GivesScalar := by
    obtain ⟨y, hy, hty⟩ := hrecipe.last
    rw [hs] at hty
    exact ⟨s, by rw [hy, Extent.ty_injective (y := .scalar s) (Except.ok.inj hty).symm]⟩
  have hreads : net.readsInput n = true ↔ r.ReadsInput := by
    rw [hrecipe.readsInput_iff hown, readsInput, hroot]
    exact List.contains_iff_mem
  rw [← hrecipe.result_eq ho hroot hown,
    Recipe.result_isSome (hrecipe.typed_literalsOf ho hx hroot hown) hscalar
      (fun c hc => hb.literalsOf hroot hc) (fun d hd extent h => reading_fits hb hx hd h),
    hreads, reading_isSome hx]

theorem layerValues_isSome (hw : net.WellFormed) (hb : net.Bounded) (hc : net.Checked) {l : LayerId}
    {layer : Layer} (hlayer : net.layers[l]? = some layer)
    (hr : ∀ n ∈ layer.neurons, net.HasRecipe n) (I : Interpretation S) (V : List S) :
    (∃ V', net.layerValues I layer V = some V') ↔ ∀ n ∈ layer.neurons,
      net.readsInput n = true → ∀ p ∈ net.readPositions n, p < V.length := by
  rw [layerValues, exists_mapM_eq_some]
  refine forall₂_congr fun n hn => ?_
  obtain ⟨x, hx, _⟩ := hw.neuron_of_mem hlayer hn
  exact fire_isSome hw.ordered hb hc (hr n hn) hx I V

theorem length_layerValues {I : Interpretation S} {layer : Layer} {V V' : List S}
    (h : net.layerValues I layer V = some V') : V'.length = layer.neurons.length :=
  (mapM_eq_some_iff.1 h).length_eq.symm

/-- All positions from which the neurons of some layers read lie within the layer before. The first
layer reads the network's input, which is as wide as itself. -/
def InRange (net : Network) (layers : List (Layer × LayerId)) : Prop :=
  ∀ q ∈ layers, ∀ n ∈ q.1.neurons, net.readsInput n = true →
    ∀ p ∈ net.readPositions n, p < net.width (q.2 - 1)

instance (net : Network) (layers : List (Layer × LayerId)) : Decidable (net.InRange layers) :=
  inferInstanceAs (Decidable (∀ q ∈ layers, ∀ n ∈ q.1.neurons, net.readsInput n = true →
    ∀ p ∈ net.readPositions n, p < net.width (q.2 - 1)))

/-- Values pass through some layers exactly if nothing is read out of range. -/
theorem propagate_isSome (hw : net.WellFormed) (hb : net.Bounded) (hc : net.Checked)
    {layers : List (Layer × LayerId)} {i : Nat} (hlayers : net.layers.toList.zipIdx.drop i = layers)
    (hr : ∀ q ∈ layers, ∀ n ∈ q.1.neurons, net.HasRecipe n) (I : Interpretation S) {V : List S}
    (hV : V.length = net.width (i - 1)) :
    (∃ V', net.propagate I layers V = some V') ↔ net.InRange layers := by
  induction layers generalizing i V with
  | nil => simp [propagate, InRange]
  | cons q rest ih =>
    obtain ⟨layer, l⟩ := q
    obtain ⟨rfl, hlayer, hrest⟩ := getElem?_of_drop_zipIdx hlayers
    have hhere := layerValues_isSome hw hb hc hlayer (hr _ List.mem_cons_self) I V
    rw [hV] at hhere
    rw [InRange, List.forall_mem_cons, ← hhere, propagate]
    cases hV' : net.layerValues I layer V with
    | none => simp
    | some V' =>
      have hwidth : V'.length = net.width (l + 1 - 1) := by
        rw [length_layerValues hV', Nat.add_sub_cancel, width, hlayer]
      rw [Option.bind_some, ih hrest (fun q hq => hr q (List.mem_cons_of_mem _ hq)) hwidth, InRange]
      simp

/-- Edges lead from each layer to the next, and input neurons stand in the first layer only. -/
structure Layered (net : Network) : Prop where
  inputs : ∀ x ∈ net.neurons, x.isInput = true → x.layer = 0
  first : ∀ x ∈ net.neurons, x.layer = 0 → x.sources = []
  sources : ∀ x ∈ net.neurons, x.layer ≠ 0 → ∀ s ∈ x.sources, net.layerOf s = x.layer - 1

instance (net : Network) : Decidable net.Layered :=
  decidable_of_iff ((∀ x ∈ net.neurons, x.isInput = true → x.layer = 0) ∧
    (∀ x ∈ net.neurons, x.layer = 0 → x.sources = []) ∧
    ∀ x ∈ net.neurons, x.layer ≠ 0 → ∀ s ∈ x.sources, net.layerOf s = x.layer - 1)
    ⟨fun h => ⟨h.1, h.2.1, h.2.2⟩, fun h => ⟨h.inputs, h.first, h.sources⟩⟩

/-- The values that a layer reads when the network reads `input`. -/
def Feeds (net : Network) (I : Interpretation S) (input : List S) (l : LayerId) (V : List S) :
    Prop :=
  match l with
  | 0 => V = input
  | k + 1 => ∃ layer, net.layers[k]? = some layer ∧
    layer.neurons.mapM (net.activation I input) = some V

theorem layerOf_eq (hx : net.neurons[n]? = some x) : net.layerOf n = x.layer := by
  rw [layerOf, hx]

/-- The activation of a source is found at its position. -/
theorem Feeds.getElem? {I : Interpretation S} {input V : List S} {k : LayerId}
    (h : net.Feeds I input (k + 1) V) (hw : net.WellFormed) (hx : net.neurons[n]? = some x)
    (hl : x.layer = k) : V[x.position]? = net.activation I input n := by
  obtain ⟨layer, hlayer, hV⟩ := h
  obtain ⟨layer', hlayer', hn⟩ := hw.listed n x hx
  obtain rfl : layer = layer' := by
    rw [hl, hlayer] at hlayer'
    exact Option.some.inj hlayer'
  obtain ⟨a, ha, hact⟩ := forall₂_getElem? (mapM_eq_some_iff.1 hV) hn
  rw [ha, hact]

/-- In a layered network a neuron's activation is computed from what its layer reads. -/
theorem activation_eq {I : Interpretation S} {input V : List S} {l : LayerId}
    (h : net.Feeds I input l V) (hw : net.WellFormed) (hlayered : net.Layered)
    (hx : net.neurons[n]? = some x) (hl : x.layer = l) :
    net.activation I input n = net.fire I n (net.reading V n) := by
  rw [activation]
  simp only [hx, reading, Option.bind_eq_bind, Option.bind_some]
  have hmem := Array.mem_of_getElem? hx
  by_cases hin : x.isInput = true
  · obtain rfl : l = 0 := by rw [← hl, hlayered.inputs x hmem hin]
    obtain rfl : V = input := h
    rw [if_pos hin, if_pos hin]
  · simp only [hin, if_false, Bool.false_eq_true]
    congr 2
    cases l with
    | zero => simp [hlayered.first x hmem hl, sourcePositions]
    | succ k =>
      rw [sourcePositions, List.mapM_map]
      refine mapM_congr fun s hs => ?_
      obtain ⟨y, hy⟩ := hw.sourced n x hx s hs
      have hyk : y.layer = k := by
        rw [← layerOf_eq hy, hlayered.sources x hmem (by simp [hl]) s hs, hl]
        rfl
      have hlt : net.layerOf s < net.layerOf n := by
        rw [layerOf_eq hy, layerOf_eq hx, hyk, hl]
        exact Nat.lt_succ_self k
      rw [if_pos hlt, ← h.getElem? hw hy hyk]
      simp [positionOf, hy]

theorem layerValues_eq {I : Interpretation S} {input V : List S} {l : LayerId}
    (h : net.Feeds I input l V) (hw : net.WellFormed) (hlayered : net.Layered) {layer : Layer}
    (hlayer : net.layers[l]? = some layer) :
    net.layerValues I layer V = layer.neurons.mapM (net.activation I input) := by
  refine mapM_congr fun n hn => ?_
  obtain ⟨x, hx, hl⟩ := hw.neuron_of_mem hlayer hn
  exact (activation_eq h hw hlayered hx hl).symm

/-- What passes through the layers is the activations of their neurons. -/
theorem propagate_eq {I : Interpretation S} {input : List S} (hw : net.WellFormed)
    (hlayered : net.Layered) {layers : List (Layer × LayerId)} {i : Nat}
    (hlayers : net.layers.toList.zipIdx.drop i = layers) {V V' : List S}
    (h : net.Feeds I input i V) (hV' : net.propagate I layers V = some V') (hne : layers ≠ []) :
    net.Feeds I input net.layers.size V' := by
  induction layers generalizing i V with
  | nil => exact absurd rfl hne
  | cons q rest ih =>
    obtain ⟨layer, l⟩ := q
    obtain ⟨rfl, hlayer, hrest⟩ := getElem?_of_drop_zipIdx hlayers
    obtain ⟨W, hW, hV'⟩ := Option.bind_eq_some_iff.1 hV'
    have hnext : net.Feeds I input (l + 1) W :=
      ⟨layer, hlayer, by rw [← layerValues_eq h hw hlayered hlayer, hW]⟩
    cases rest with
    | nil =>
      obtain rfl : W = V' := Option.some.inj hV'
      have hsize : net.layers.size = l + 1 := by
        have hlt : l < net.layers.size := (Array.getElem?_eq_some_iff.1 hlayer).1
        have hle := List.drop_eq_nil_iff.1 hrest
        simp only [List.length_zipIdx, Array.length_toList] at hle
        exact Nat.le_antisymm hle hlt
      rw [hsize]
      exact hnext
    | cons q' rest' => exact ih hrest hnext hV' (by simp)

theorem activation_of_passesInput (ho : Arena.Ordered net.arena.nodes) {I : Interpretation S}
    {input : List S} (hx : net.neurons[n]? = some x) (h : net.passesInput n = true) :
    net.activation I input n = input[x.position]? := by
  simp only [passesInput, hx, Bool.and_eq_true] at h
  obtain ⟨hin, h⟩ := h
  have hscalar : ∀ o : Option S, (o.map Datum.scalar).bind Datum.scalar? = o := by
    intro o
    cases o <;> rfl
  rw [activation]
  simp only [hx, hin, if_true, Option.bind_eq_bind, Option.bind_some, fire]
  cases hroot : x.forward with
  | none => exact hscalar _
  | some root =>
    rw [hroot] at h
    simp only [valueOf_node ho (beq_iff_eq.1 h), Node.valueBy, if_true]
    exact hscalar _

/-- Where the first layer passes the input on, the second one reads the input. -/
theorem feeds_of_passThrough (hw : net.WellFormed) {layer : Layer}
    (hlayer : net.layers[0]? = some layer) (h : net.passThrough layer = true)
    (I : Interpretation S) {input : List S} (hlen : input.length = net.width 0) :
    net.Feeds I input 1 input := by
  refine ⟨layer, hlayer, mapM_eq_some_iff.2 (List.forall₂_iff_get.2 ⟨?_, fun i hi hi' => ?_⟩)⟩
  · rw [hlen, width, hlayer]
  · have hget : layer.neurons[i]? = some (layer.neurons.get ⟨i, hi⟩) := List.getElem?_eq_getElem hi
    obtain ⟨x, hx, _, hpos⟩ := hw.placed 0 layer i _ hlayer hget
    have hpass := List.all_eq_true.1 h _ (List.mem_of_getElem? hget)
    rw [activation_of_passesInput hw.ordered hx hpass, hpos]
    exact List.getElem?_eq_getElem hi'

/-- In a layered network nothing is read out of range. -/
theorem Layered.inRange (hlayered : net.Layered) (hw : net.WellFormed)
    {layers : List (Layer × LayerId)} (hlayers : ∀ q ∈ layers, net.layers[q.2]? = some q.1) :
    net.InRange layers := by
  rintro ⟨layer, l⟩ hq n hn _ p hp
  obtain ⟨i, hi⟩ := List.mem_iff_getElem?.1 hn
  obtain ⟨x, hx, hl, hpos⟩ := hw.placed l layer i n (hlayers _ hq) hi
  have hmem := Array.mem_of_getElem? hx
  have hwidth : ∀ (m : NeuronId) (z : Neuron), net.neurons[m]? = some z →
      z.position < net.width z.layer := by
    intro m z hz
    obtain ⟨layer', hlayer', hm⟩ := hw.listed m z hz
    rw [width, hlayer']
    exact (List.getElem?_eq_some_iff.1 hm).1
  simp only [readPositions, hx] at hp
  split at hp
  · rename_i hin
    have hzero := hlayered.inputs x hmem hin
    obtain rfl : p = x.position := by simpa using hp
    have := hwidth n x hx
    rw [hzero] at this hl
    rwa [← hl]
  · obtain ⟨s, hs, rfl⟩ := List.mem_map.1 hp
    obtain ⟨z, hz⟩ := hw.sourced n x hx s hs
    by_cases hzero : x.layer = 0
    · rw [hlayered.first x hmem hzero] at hs
      cases hs
    · have hzl : z.layer = l - 1 := by
        rw [← layerOf_eq hz, hlayered.sources x hmem hzero s hs, hl]
      have := hwidth s z hz
      rw [hzl] at this
      rw [positionOf, hz]
      exact this

end Network

end Synapse
