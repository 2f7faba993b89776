import Mathlib.Tactic
import Synapse.CommandLine
import Synapse.Proofs.Invariance
import Synapse.Proofs.Perceptrons
import Synapse.Proofs.Tables

namespace Synapse

theorem Ty.join_self (t : Ty) : t.join t = some t := by
  have hscalar : ∀ s : Scalar, s.join s = some s := by
    intro s
    cases s <;> rfl
  cases t with
  | scalar s => simp [Ty.join, Ty.elem, Ty.isScalar, hscalar]
  | vector s len => cases len <;> simp [Ty.join, Ty.elem, Ty.isScalar, Ty.len, Ty.shorter, hscalar]

namespace Sample

section

variable (n m : NeuronId) (ws vs : List Binary64) (b c : Binary64)

theorem dag_weightedSum : (weightedSum n ws b).dag = (weightedSum m vs c).dag := by
  have hoperands : (weightedSum n ws b).operandsOf = (weightedSum m vs c).operandsOf := by
    funext i
    rcases i with _ | _ | _ | _ | _ | _ | _ | i <;> rfl
  simp only [Sketch.dag, hoperands]

theorem order_weightedSum : (weightedSum n ws b).order = [0, 1, 2, 3, 4, 5, 6] := by
  change (weightedSum n ws b).dag.postorder 6 = _
  rw [dag_weightedSum n 0 ws [] b ⟨0⟩]
  decide +kernel

theorem literals_weightedSum : (weightedSum n ws b).literals = [.vec ws, .real b] := by
  have hpreorder : (weightedSum n ws b).dag.preorder 6 = [6, 5, 3, 2, 0, 1, 4] := by
    rw [dag_weightedSum n 0 ws [] b ⟨0⟩]
    decide +kernel
  change ((weightedSum n ws b).dag.preorder 6).filterMap _ = _
  rw [hpreorder]
  rfl

theorem alike_weightedSum (h : ws.length = vs.length) :
    (weightedSum n ws b).Alike (weightedSum m vs c) := by
  refine .cons ⟨rfl, fun _ _ => .vec _ _ h⟩ (.cons ⟨rfl, fun _ _ => .input _ _⟩ ?_)
  refine .cons ⟨rfl, fun _ _ => .binary _ _ _ _ _⟩ (.cons ⟨rfl, fun _ _ => .reduce _ _ _⟩ ?_)
  refine .cons ⟨rfl, fun _ _ => .real _ _⟩ (.cons ⟨rfl, fun _ _ => .binary _ _ _ _ _⟩ ?_)
  exact .cons ⟨rfl, fun _ _ => .activate _ _ _⟩ .nil

end

/-- A weighted sum of as many inputs as there are weights is a real number. -/
theorem typeOf_weightedSum {n : NeuronId} {ws : List Binary64} {b : Binary64} {nodes : Array Node}
    {env : Env} {base : NodeId} (ho : Arena.Ordered nodes)
    (h : (weightedSum n ws b).Stands nodes base) (hsome : ws.length % UInt32.size ≠ 0)
    (hinput : env.input n = .ok (.vectorOf .real ws.length)) :
    typeOf nodes env ((weightedSum n ws b).root base) = .ok .real := by
  have hline : ∀ (i : Nat) (t : Term), (weightedSum n ws b).lines[i]? = some t →
      typeOf nodes env ((weightedSum n ws b).place base i) =
        (t.node ((weightedSum n ws b).place base)).typeBy env (typeOf nodes env) := by
    intro i t ht
    have hi : i < 7 := (List.getElem?_eq_some_iff.1 ht).1
    have hmem : i ∈ (weightedSum n ws b).order := by
      rw [order_weightedSum]
      interval_cases i <;> simp
    exact h.typeOf_place ho hmem ht env
  -- the lines in turn: the products are a vector as long as the weights, and so not empty
  have hweights := hline 0 _ rfl
  have hinputs := (hline 1 _ rfl).trans (orDefect_eq_ok.2 hinput)
  have hproducts := (hline 2 _ rfl).trans (bind_eq_ok.2 ⟨_, hweights, bind_eq_ok.2 ⟨_, hinputs,
    orTypeError_eq_ok.2 (Rule.join_eq_ok.2 (Ty.join_self _))⟩⟩)
  have hreduce : Rule.reduce (.vectorOf .real ws.length) = .ok .real := by
    obtain ⟨k, hk⟩ := Nat.exists_eq_succ_of_ne_zero hsome
    rw [Ty.vectorOf, hk]
    rfl
  have hsum := (hline 3 _ rfl).trans (bind_eq_ok.2 ⟨_, hproducts, orTypeError_eq_ok.2 hreduce⟩)
  have hbias := hline 4 _ rfl
  have htotal := (hline 5 _ rfl).trans (bind_eq_ok.2 ⟨_, hsum, bind_eq_ok.2 ⟨_, hbias,
    orTypeError_eq_ok.2 (Rule.join_eq_ok.2 (Ty.join_self _))⟩⟩)
  exact (hline 6 _ rfl).trans (bind_eq_ok.2 ⟨_, htotal, orTypeError_eq_ok.2 rfl⟩)

section

variable {w hidden n m : Nat}

theorem formula_input (h : n / w = 0) : formula w n = passOn n := if_pos h

theorem formula_sum (h : n / w ≠ 0) : formula w n =
    weightedSum n ((List.range w).map (weight (n / w) (n % w))) (bias (n / w) (n % w) w) := if_neg h

theorem input_of_mem_formula (h : .input m ∈ (formula w n).lines) : m = n := by
  by_cases hlayer : n / w = 0
  · rw [formula_input hlayer] at h
    simpa [Sketch.lines, passOn] using h
  · rw [formula_sum hlayer] at h
    simpa [Sketch.lines, weightedSum] using h

theorem alike_formula (h : n / w = m / w) : (formula w n).Alike (formula w m) := by
  by_cases hlayer : n / w = 0
  · rw [formula_input hlayer, formula_input (h ▸ hlayer)]
    exact .cons ⟨rfl, fun _ _ => .input _ _⟩ .nil
  · rw [formula_sum hlayer, formula_sum (h ▸ hlayer)]
    exact alike_weightedSum _ _ _ _ _ _ (by simp)

theorem kindOf_eq_input {l : Nat} : kindOf hidden l = .input ↔ l = 0 := by
  cases l with
  | zero => simp [kindOf]
  | succ l => simp [kindOf_ne_input]

/-- A neuron of the first layer reads a number, and any other one reads the layer before. -/
theorem inputTy_eq {x : Neuron} {l : Nat} (hkind : x.kind = kindOf hidden l)
    (hsources : x.sources = sources w l) :
    x.inputTy = if l = 0 then .real else .vectorOf .real w := by
  by_cases hl : l = 0
  · simp [Neuron.inputTy, Neuron.isInput, hkind, hl, kindOf]
  · have hinput : ¬ kindOf hidden l = .input := mt kindOf_eq_input.1 hl
    simp [Neuron.inputTy, Neuron.isInput, hkind, hinput, hl, hsources, sources]

end

namespace Stage

variable {w hidden : Nat} {net : Network}

/-- What is known of a neuron once the network is complete. -/
theorem complete (h : Full w (kindOf hidden) (hidden + 2) net) {n : Nat} {x : Neuron}
    (hx : net.neurons[n]? = some x) : x.kind = kindOf hidden (n / w) ∧
      x.sources = sources w (n / w) ∧ ∃ base, x.forward = some ((formula w n).root base) ∧
        (formula w n).Stands net.arena.nodes base := by
  have hn : n < (hidden + 2) * w := h.size ▸ (Array.getElem?_eq_some_iff.1 hx).1
  obtain ⟨y, hy, hkind, hsources, hforward⟩ := h.neuron n hn
  obtain rfl : x = y := Option.some.inj (hx.symm.trans hy)
  rw [if_pos hn] at hsources
  exact ⟨hkind, hsources, hforward hn⟩

theorem forward? (h : Full w (kindOf hidden) (hidden + 2) net) {n : Nat} {x : Neuron}
    (hx : net.neurons[n]? = some x) : ∃ base, net.forward? n = some ((formula w n).root base) ∧
      (formula w n).Stands net.arena.nodes base := by
  obtain ⟨_, _, base, hforward, hstands⟩ := h.complete hx
  exact ⟨base, by simp [Network.forward?, hx, hforward], hstands⟩

/-- Every neuron computes a real number. -/
theorem real (h : Full w (kindOf hidden) (hidden + 2) net) (ho : Arena.Ordered net.arena.nodes)
    (hpos : 0 < w) (hw : w < UInt32.size) {n : Nat} {x : Neuron} (hx : net.neurons[n]? = some x)
    {base : NodeId} (hstands : (formula w n).Stands net.arena.nodes base) :
    typeOf net.arena.nodes net.env ((formula w n).root base) = .ok .real := by
  obtain ⟨hkind, hsources, _⟩ := h.complete hx
  have hty := inputTy_eq hkind hsources
  by_cases hlayer : n / w = 0
  · rw [if_pos hlayer] at hty
    rw [formula_input hlayer] at hstands ⊢
    rw [← hty]
    exact typeOf_input ho (hstands.node (Sketch.root_mem_order _) rfl) hx
  · rw [if_neg hlayer] at hty
    rw [formula_sum hlayer] at hstands ⊢
    have hlength : ((List.range w).map (weight (n / w) (n % w))).length = w := by simp
    refine typeOf_weightedSum ho hstands ?_ ?_
    · rw [hlength, Nat.mod_eq_of_lt hw]
      omega
    · rw [Network.env_input hx, hty, hlength]

theorem checked (h : Full w (kindOf hidden) (hidden + 2) net) (ho : Arena.Ordered net.arena.nodes)
    (hpos : 0 < w) (hw : w < UInt32.size) : net.Checked := by
  intro n root hroot
  obtain ⟨x, hx, _⟩ := Option.bind_eq_some_iff.1 hroot
  obtain ⟨base, hforward, hstands⟩ := h.forward? hx
  obtain rfl : root = _ := Option.some.inj (hroot.symm.trans hforward)
  exact ⟨hstands.readsOwn ho fun m hm => input_of_mem_formula hm, .real,
    h.real ho hpos hw hx hstands⟩

theorem layer_complete (h : Full w (kindOf hidden) (hidden + 2) net) {l : Nat} {layer : Layer}
    (hl : net.layers[l]? = some layer) : layer.neurons = List.range' (l * w) w := by
  have hlt : l < hidden + 2 := h.count ▸ (Array.getElem?_eq_some_iff.1 hl).1
  have hneurons := h.complete_layer hlt (Nat.mul_le_mul_right w hlt)
  rw [hl, Option.map_some] at hneurons
  exact Option.some.inj hneurons

/-- Neurons of one layer are fed alike. -/
theorem sourcesOf_eq (h : Full w (kindOf hidden) (hidden + 2) net) {n : Nat} {x : Neuron}
    (hx : net.neurons[n]? = some x) :
    net.sourcesOf n = (sources w (n / w)).map net.positionOf := by
  obtain ⟨_, hsources, _⟩ := h.complete hx
  rw [Network.sourcesOf_eq hx, Network.sourcePositions, hsources]

/-- Neurons of one layer can be computed by one loop. -/
theorem merging_eq (h : Full w (kindOf hidden) (hidden + 2) net) (hr : net.Ready) {n m : Nat}
    {x y : Neuron} (hx : net.neurons[n]? = some x) (hy : net.neurons[m]? = some y)
    (hsame : n / w = m / w) : net.merging n m = .ok true := by
  have ho := hr.wellFormed.ordered
  obtain ⟨hkind, hsources, _⟩ := h.complete hx
  obtain ⟨hkind', hsources', _⟩ := h.complete hy
  obtain ⟨base, hforward, hstands⟩ := h.forward? hx
  obtain ⟨base', hforward', hstands'⟩ := h.forward? hy
  -- each expression reads its own neuron only, and neurons of one layer have inputs of one type
  have hinputs : ∀ (i : Nat) (j k : NeuronId), (formula w n).lines[i]? = some (.input j) →
      (formula w m).lines[i]? = some (.input k) → net.env.input k = net.env.input j := by
    intro i j k hj hk
    rw [input_of_mem_formula (List.mem_of_getElem? hj),
      input_of_mem_formula (List.mem_of_getElem? hk), Network.env_input hx, Network.env_input hy,
      inputTy_eq hkind hsources, inputTy_eq hkind' hsources', hsame]
  obtain ⟨f, hf, hmatches⟩ := (alike_formula hsame).exists_matches ho hstands hstands' hinputs
  have hshape : net.oneShape n m = true := (Network.oneShape_iff ho (hr.owned hx) (hr.owned hy)).2
    ⟨_, _, f, hforward, hforward', hf, hmatches⟩
  have hfed : net.sourcesOf n = net.sourcesOf m := by
    rw [h.sourcesOf_eq hx, h.sourcesOf_eq hy, hsame]
  simp [Network.merging, Network.Clash, hshape, hfed]

end Stage

/-- The ensemble of a whole layer. -/
def ensembleOf (w l : Nat) : Ensemble := ⟨l, 0, l * w, List.range' (l * w + 1) (w - 1)⟩

theorem neurons_ensembleOf {w : Nat} (hpos : 0 < w) (l : Nat) :
    (ensembleOf w l).neurons = List.range' (l * w) w := by
  obtain ⟨k, rfl⟩ := Nat.exists_eq_succ_of_ne_zero (Nat.ne_of_gt hpos)
  rw [List.range'_succ]
  rfl

theorem stop_ensembleOf {w : Nat} (hpos : 0 < w) (l : Nat) : (ensembleOf w l).stop = w := by
  rw [Ensemble.stop, neurons_ensembleOf hpos, List.length_range']
  exact Nat.zero_add w

/-- The weights of a layer, one row for each of its neurons. -/
def weightTable (w l : Nat) : Table where
  elem := .vectorOf .real w
  first := 0
  entries := (List.range w).map fun p => .vec ((List.range w).map (weight l p))

/-- The biases of a layer. -/
def biasTable (w l : Nat) : Table where
  elem := .real
  first := 0
  entries := (List.range w).map fun p => .real (bias l p w)

namespace Stage

variable {w hidden : Nat} {net : Network}

theorem neuron_of_mem (h : Full w (kindOf hidden) (hidden + 2) net) {l n : Nat}
    (hl : l < hidden + 2) (hn : n ∈ List.range' (l * w) w) : ∃ x, net.neurons[n]? = some x := by
  have hlt : n < (hidden + 2) * w :=
    Nat.lt_of_lt_of_le (mem_layer.1 hn).2 (Nat.mul_le_mul_right w hl)
  obtain ⟨x, hx, _⟩ := h.neuron n hlt
  exact ⟨x, hx⟩

/-- A layer is one ensemble. -/
theorem grouping_eq (h : Full w (kindOf hidden) (hidden + 2) net) (hr : net.Ready) (hpos : 0 < w)
    {l : Nat} (hl : l < hidden + 2) :
    net.grouping l (List.range' (l * w) w) = .ok [ensembleOf w l] := by
  have hsplit : List.range' (l * w) w = l * w :: List.range' (l * w + 1) (w - 1) :=
    (neurons_ensembleOf hpos l).symm
  have hmerging : ∀ m ∈ List.range' (l * w + 1) (w - 1), net.merging m (l * w) = .ok true := by
    intro m hm
    have hm : m ∈ List.range' (l * w) w := hsplit ▸ List.mem_cons_of_mem _ hm
    have hfirst : l * w ∈ List.range' (l * w) w := hsplit ▸ List.mem_cons_self
    obtain ⟨x, hx⟩ := h.neuron_of_mem hl hm
    obtain ⟨y, hy⟩ := h.neuron_of_mem hl hfirst
    exact h.merging_eq hr hx hy ((div_of_mem hm).trans (div_of_mem hfirst).symm)
  rw [hsplit]
  exact Network.grouping_of_merging hmerging

theorem collect (h : Full w (kindOf hidden) (hidden + 2) net) (hr : net.Ready) (hpos : 0 < w)
    {l : Nat} (hl : l < hidden + 2) : Pass.Returns net (Pass.collect l) [ensembleOf w l] := by
  obtain ⟨layer, hlayer⟩ : ∃ layer, net.layers[l]? = some layer :=
    ⟨_, Array.getElem?_eq_getElem (h.count ▸ hl)⟩
  have hcollect := hr.collect hlayer
  rwa [h.layer_complete hlayer, h.grouping_eq hr hpos hl] at hcollect

theorem literalsOf_eq (h : Full w (kindOf hidden) (hidden + 2) net)
    (ho : Arena.Ordered net.arena.nodes) {n : Nat} {x : Neuron} (hx : net.neurons[n]? = some x)
    (hlayer : n / w ≠ 0) : net.literalsOf n =
      [.vec ((List.range w).map (weight (n / w) (n % w))), .real (bias (n / w) (n % w) w)] := by
  obtain ⟨base, hforward, hstands⟩ := h.forward? hx
  rw [Network.literalsOf_eq hforward, hstands.literals_eq ho, formula_sum hlayer,
    literals_weightedSum]

/-- A layer that is computed has a table of weights and a table of biases. -/
theorem literalTables_eq (h : Full w (kindOf hidden) (hidden + 2) net)
    (ho : Arena.Ordered net.arena.nodes) (hpos : 0 < w) {l : Nat} (hl : l < hidden + 2)
    (hlayer : l ≠ 0) : net.literalTables (ensembleOf w l) = [weightTable w l, biasTable w l] := by
  have hliterals : ∀ p < w, net.literalsOf (l * w + p) =
      [.vec ((List.range w).map (weight l p)), .real (bias l p w)] := by
    intro p hp
    have hmem : l * w + p ∈ List.range' (l * w) w := List.mem_range'_1.2 (by omega)
    have hdiv := div_of_mem hmem
    have hmod : (l * w + p) % w = p := by simp [Nat.mod_eq_of_lt hp]
    obtain ⟨x, hx⟩ := h.neuron_of_mem hl hmem
    rw [h.literalsOf_eq ho hx (hdiv.symm ▸ hlayer), hdiv, hmod]
  have hfirst : net.literalsOf (ensembleOf w l).representative = _ := hliterals 0 hpos
  have hentries : ∀ j : Nat, (ensembleOf w l).neurons.filterMap (fun n => (net.literalsOf n)[j]?) =
      (List.range w).filterMap fun p =>
        [Literal.vec ((List.range w).map (weight l p)), .real (bias l p w)][j]? := by
    intro j
    rw [neurons_ensembleOf hpos, List.range'_eq_map_range, List.filterMap_map]
    refine List.filterMap_congr fun p hp => ?_
    rw [Function.comp_apply, hliterals p (List.mem_range.1 hp)]
  rw [Network.literalTables, hfirst]
  simp only [hentries]
  simp [weightTable, biasTable, ensembleOf, Literal.ty]

/-- All neurons of a layer start to read at the same place. -/
theorem baseTables_eq (h : Full w (kindOf hidden) (hidden + 2) net) (hpos : 0 < w) {l : Nat}
    (hl : l < hidden + 2) (hlayer : l ≠ 0) : net.baseTables (ensembleOf w l) = [] := by
  have hprogression : net.InProgression (ensembleOf w l) := by
    refine ⟨net.positionOf ((l - 1) * w), 0, fun k n hn =>
      ⟨net.positionOf ((l - 1) * w), ?_, by simp⟩⟩
    have hmem : n ∈ List.range' (l * w) w := neurons_ensembleOf hpos l ▸ List.mem_of_getElem? hn
    obtain ⟨x, hx⟩ := h.neuron_of_mem hl hmem
    rw [h.sourcesOf_eq hx, div_of_mem hmem, sources, if_neg hlayer, List.head?_map]
    obtain ⟨k, rfl⟩ := Nat.exists_eq_succ_of_ne_zero (Nat.ne_of_gt hpos)
    rfl
  have hstride : net.stride? (ensembleOf w l) ≠ none := fun hnone =>
    Network.stride?_eq_none_iff.1 hnone hprogression
  exact if_neg fun hneeded => hstride hneeded.2

theorem passesInput_eq (h : Full w (kindOf hidden) (hidden + 2) net) {n : Nat} {x : Neuron}
    (hx : net.neurons[n]? = some x) (hfirst : n / w = 0) : net.passesInput n = true := by
  obtain ⟨hkind, _, base, hforward, hstands⟩ := h.complete hx
  rw [formula_input hfirst] at hforward hstands
  have hnode := hstands.node (Sketch.root_mem_order _) rfl
  have hinput : x.isInput = true := by simp [Neuron.isInput, hkind, hfirst, kindOf]
  rw [Network.passesInput, hx]
  simp only [hinput, hforward, Bool.true_and]
  exact beq_iff_eq.2 hnode

/-- The layers that become code are all but the first. -/
theorem loweredLayers_eq (h : Full w (kindOf hidden) (hidden + 2) net) :
    net.loweredLayers = net.layers.toList.zipIdx.drop 1 := by
  obtain ⟨first, second, rest, hlayers⟩ : ∃ first second rest,
      net.layers.toList = first :: second :: rest := by
    have hlength : net.layers.toList.length = hidden + 2 := h.count
    match hlist : net.layers.toList with
    | first :: second :: rest => exact ⟨first, second, rest, rfl⟩
    | [_] => simp [hlist] at hlength
    | [] => simp [hlist] at hlength
  have hfirst : net.layers[0]? = some first := by
    rw [← Array.getElem?_toList, hlayers]
    rfl
  have hpass : net.passThrough first = true := by
    refine List.all_eq_true.2 fun n hn => ?_
    rw [h.layer_complete hfirst] at hn
    obtain ⟨x, hx⟩ := h.neuron_of_mem (Nat.succ_pos _) hn
    exact h.passesInput_eq hx (div_of_mem hn)
  simp [Network.loweredLayers, hlayers, hpass]

theorem loweredLayers_numbers (h : Full w (kindOf hidden) (hidden + 2) net) :
    net.loweredLayers.map (·.2) = List.range' 1 (hidden + 1) := by
  rw [h.loweredLayers_eq, List.map_drop, List.zipIdx_map_snd, Array.length_toList, h.count]
  simp

/-- The ensembles that become loops. -/
theorem groupings_eq (h : Full w (kindOf hidden) (hidden + 2) net) (hr : net.Ready)
    (hpos : 0 < w) : net.groupings net.loweredLayers =
      .ok ((List.range' 1 (hidden + 1)).map (ensembleOf w)) := by
  have hlayers : ∀ q ∈ net.loweredLayers,
      net.grouping q.2 q.1.neurons = .ok [ensembleOf w q.2] := by
    intro q hq
    have hl := getElem?_of_mem_loweredLayers hq
    rw [h.layer_complete hl]
    exact h.grouping_eq hr hpos (h.count ▸ (Array.getElem?_eq_some_iff.1 hl).1)
  rw [Network.groupings_of_layers hlayers, ← h.loweredLayers_numbers, List.map_map,
    List.map_eq_flatMap]
  rfl

theorem tables_eq (h : Full w (kindOf hidden) (hidden + 2) net)
    (ho : Arena.Ordered net.arena.nodes) (hpos : 0 < w) :
    net.tables ((List.range' 1 (hidden + 1)).map (ensembleOf w)) =
      (List.range' 1 (hidden + 1)).flatMap fun l => [weightTable w l, biasTable w l] := by
  rw [Network.tables, List.flatMap_map]
  refine List.flatMap_congr fun l hl => ?_
  have hl : 1 ≤ l ∧ l < 1 + (hidden + 1) := List.mem_range'_1.1 hl
  rw [h.literalTables_eq ho hpos (by omega) (by omega),
    h.baseTables_eq hpos (by omega) (by omega), List.append_nil]

theorem statements_eq (h : Full w (kindOf hidden) (hidden + 2) net) :
    net.loweredLayers.countP (fun q => q.2 ≠ net.layers.size - 1) = hidden := by
  have hcount : net.loweredLayers.countP (fun q => q.2 ≠ net.layers.size - 1) =
      (List.range' 1 (hidden + 1)).countP (fun l => l ≠ hidden + 1) := by
    rw [← h.loweredLayers_numbers, List.countP_map, h.count]
    rfl
  have hothers : (List.range' 1 hidden).countP (fun l => l ≠ hidden + 1) = hidden := by
    refine (List.countP_eq_length.2 fun l hl => ?_).trans List.length_range'
    have hl := List.mem_range'_1.1 hl
    simp only [decide_eq_true_eq]
    omega
  rw [hcount, List.range'_1_concat, List.countP_append, hothers]
  simp [Nat.add_comm]

end Stage

/-- What the kernel of a sample network is like. -/
structure Shaped (w hidden : Nat) (k : Kernel) : Prop where
  statements : k.body.length = 2 * hidden + 1
  tables : k.tables.toList =
    (List.range' 1 (hidden + 1)).flatMap fun l => [weightTable w l, biasTable w l]
  count : k.tables.size = 2 * (hidden + 1)
  entries : ∀ t ∈ k.tables.toList, t.entries.length = w
  typed : k.run Kernel.check = .ok ()
  defined : k.checkDefinitions = .ok ()

section

variable {w hidden : Nat} {s : Session}

theorem realForward_of_full (hs : s.Reachable) (h : Full w (kindOf hidden) (hidden + 2) s.net)
    (hpos : 0 < w) (hw : w < UInt32.size) :
    ∀ q ∈ s.net.loweredLayers, ∀ n ∈ q.1.neurons, s.net.RealForward n := by
  intro q hq n hn
  obtain ⟨x, hx, _⟩ := hs.wellFormed.neuron_of_mem (getElem?_of_mem_loweredLayers hq) hn
  obtain ⟨base, hforward, hstands⟩ := h.forward? hx
  exact ⟨_, hforward, h.real hs.wellFormed.ordered hpos hw hx hstands⟩

/-- Nothing is missing in a complete network, so that it becomes a kernel. -/
theorem lower_of_full (hs : s.Reachable) (h : Full w (kindOf hidden) (hidden + 2) s.net)
    (hpos : 0 < w) (hw : w < UInt32.size) (hcheck : Pass.check.result s = .ok ()) :
    ∃ k, Pass.lower.result s = .ok k := by
  have hr := hs.ready hcheck
  have hgroups : ∀ q ∈ s.net.loweredLayers,
      Pass.Yields s.net (Pass.collect q.2) fun _ => True := by
    intro q hq
    have hl := getElem?_of_mem_loweredLayers hq
    have hlt : q.2 < hidden + 2 := h.count ▸ (Array.getElem?_eq_some_iff.1 hl).1
    exact (h.collect hr hpos hlt).imp fun r he => ⟨_, he, trivial⟩
  have hgap : s.net.firstGap? s.net.loweredLayers = none := by
    refine List.findSome?_eq_none_iff.2 fun q hq => ?_
    refine Option.map_eq_none_iff.2 (List.findIdx?_eq_none_iff.2 fun n hn => ?_)
    obtain ⟨root, hroot, _⟩ := realForward_of_full hs h hpos hw q hq n hn
    simp [hroot]
  have hstops := (Pass.Answers.stopsAt_lower hr (hs.check_returns hcheck) hgroups).result
    hr.wellFormed
  rwa [hgap] at hstops

theorem shaped_of_full (hs : s.Reachable) (h : Full w (kindOf hidden) (hidden + 2) s.net)
    (hpos : 0 < w) (hw : w < UInt32.size) (hcheck : Pass.check.result s = .ok ()) {k : Kernel}
    (hk : Pass.lower.result s = .ok k) : Shaped w hidden k := by
  have hr := hs.ready hcheck
  have hlowering : s.net.lowering = .ok k := hs.lower_result ▸ hk
  have hgroupings := h.groupings_eq hr hpos
  obtain ⟨es, hes, htables⟩ := Network.lowering_tables hlowering
  obtain rfl := Except.ok.inj (hgroupings.symm.trans hes)
  rw [h.tables_eq hr.wellFormed.ordered hpos] at htables
  obtain ⟨s', hrun⟩ := Pass.result_eq_ok.1 hk
  have hlowered := hs.lowered hrun
  obtain ⟨cs, hcs, hcomputes⟩ := hlowered.code
  refine ⟨?_, htables, ?_, ?_, ?_, ?_⟩
  · rw [Network.lowering_body_length hlowering hgroupings, h.statements_eq, List.length_map,
      List.length_range']
    omega
  · rw [← Array.length_toList, htables]
    simp [List.length_flatMap, Nat.mul_comm]
  · intro t ht
    rw [htables, List.mem_flatMap] at ht
    obtain ⟨l, _, ht⟩ := ht
    simp only [List.mem_cons, List.not_mem_nil, or_false] at ht
    rcases ht with rfl | rfl <;> simp [weightTable, biasTable]
  · exact (Kernel.run_check_eq_ok hlowered.untyped hcs).2
      (hcomputes.typed.2 (realForward_of_full hs h hpos hw))
  · exact Kernel.checkDefinitions_eq_ok hcs (hcomputes.inScope _ List.mem_cons_self)

/-- A complete network passes the check, its layers are grouped, and it compiles. -/
theorem compile_of_full (hs : s.Reachable) (h : Full w (kindOf hidden) (hidden + 2) s.net)
    (hpos : 0 < w) (hw : w < UInt32.size) :
    Pass.check.result s = .ok () ∧
      (∀ l < hidden + 2, (Pass.collect l).result s = .ok [ensembleOf w l]) ∧
      ∃ k, Shaped w hidden k ∧ ∀ o, ∃ c, (Pass.compile o).result s = .ok c ∧ c.kernel = k := by
  have hcheck : Pass.check.result s = .ok () :=
    ((Pass.Answers.checking hs.wellFormed).result hs.wellFormed).trans
      (h.checked hs.wellFormed.ordered hpos hw).checking
  have hr := hs.ready hcheck
  have hcollect : ∀ l < hidden + 2, (Pass.collect l).result s = .ok [ensembleOf w l] :=
    fun l hl => (h.collect hr hpos hl).result hr.wellFormed
  have hgroup : s.net.groupAll = .ok () := by
    refine Network.groupAll_eq_ok.2 fun l hl => ⟨[ensembleOf w l], ?_⟩
    have hlayer := Array.getElem?_eq_getElem hl
    rw [Network.groupingAt_eq hlayer, h.layer_complete hlayer]
    exact h.grouping_eq hr hpos (h.count ▸ hl)
  obtain ⟨k, hk⟩ := lower_of_full hs h hpos hw hcheck
  refine ⟨hcheck, hcollect, k, shaped_of_full hs h hpos hw hcheck hk, fun o => ?_⟩
  have hcompile := hs.compile_result hcheck o
  rw [hgroup, hk] at hcompile
  cases hresult : (Pass.compile o).result s with
  | error e =>
    rw [hresult] at hcompile
    cases hcompile
  | ok c =>
    rw [hresult] at hcompile
    exact ⟨c, rfl, Except.ok.inj hcompile⟩

end

/-- The command line succeeds where there is a neuron. -/
theorem run_eq_ok {r : CommandLine.Request} (hpos : 0 < r.neurons)
    (hw : r.neurons < UInt32.size) : ∃ a, CommandLine.run r = .ok a := by
  obtain ⟨_, s, hbuild, hs, hfull⟩ := builds_perceptron r.neurons r.layers {} .start rfl
  obtain ⟨_, _, k, _, hcompile⟩ := compile_of_full hs hfull hpos hw
  obtain ⟨c, hc, _⟩ := hcompile r.options
  obtain ⟨s', hc⟩ := Pass.result_eq_ok.1 hc
  have hwork : (perceptron r.neurons r.layers >>= fun _ => Pass.compile r.options) {} = .ok c s' :=
    (Pass.bind_of_ok hbuild).trans hc
  rw [CommandLine.run, if_neg (Nat.ne_of_gt hpos)]
  simp only [hwork]
  exact ⟨_, rfl⟩

end Sample

/-- Sample networks of every width and depth compile to a kernel of the shape that they should have,
and the command line refuses nothing but networks without neurons. -/
theorem sample_networks_compile (w hidden : Nat) (hpos : 0 < w) (hw : w < UInt32.size) :
    (∃ s, Sample.perceptron w hidden {} = .ok () s ∧ Pass.check.result s = .ok () ∧
      s.net.layers.size = hidden + 2 ∧
      (∀ l < hidden + 2, ∃ e, (Pass.collect l).result s = .ok [e] ∧ e.start = 0 ∧ e.stop = w) ∧
      ∃ k, Sample.Shaped w hidden k ∧
        ∀ o, ∃ c, (Pass.compile o).result s = .ok c ∧ c.kernel = k) ∧
    ∀ r : CommandLine.Request, r.neurons < UInt32.size →
      ((∃ e, CommandLine.run r = .error e) ↔ r.neurons = 0) := by
  constructor
  · obtain ⟨_, s, hbuild, hs, hfull⟩ := Sample.builds_perceptron w hidden {} .start rfl
    obtain ⟨hcheck, hcollect, hcompile⟩ := Sample.compile_of_full hs hfull hpos hw
    refine ⟨s, hbuild, hcheck, hfull.count, fun l hl => ?_, hcompile⟩
    exact ⟨_, hcollect l hl, rfl, Sample.stop_ensembleOf hpos l⟩
  · intro r hr
    constructor
    · intro herror
      obtain ⟨e, he⟩ := herror
      by_contra hne
      obtain ⟨a, ha⟩ := Sample.run_eq_ok (Nat.pos_of_ne_zero hne) hr
      rw [he] at ha
      cases ha
    · intro hnone
      exact ⟨.noNeurons, if_pos hnone⟩

/-- Three inputs and three layers of three sigmoid neurons. -/
theorem deep_sample_compiles : 0 < 3 ∧ 3 < UInt32.size ∧
    (∃ s k, Sample.perceptron 3 2 {} = .ok () s ∧ k.body.length = 5 ∧ k.tables.size = 6 ∧
      ∀ o, ∃ c, (Pass.compile o).result s = .ok c ∧ c.kernel = k) ∧
    ∀ o, ∃ a, CommandLine.run { neurons := 3, layers := 2, options := o } = .ok a := by
  have hpos : 0 < 3 := by decide
  have hw : 3 < UInt32.size := by decide
  obtain ⟨⟨s, hbuild, _, _, _, k, hshaped, hcompile⟩, hrun⟩ :=
    sample_networks_compile 3 2 hpos hw
  refine ⟨hpos, hw, ⟨s, k, hbuild, hshaped.statements, hshaped.count, hcompile⟩, fun o => ?_⟩
  cases h : CommandLine.run { neurons := 3, layers := 2, options := o } with
  | ok a => exact ⟨a, rfl⟩
  | error e => exact absurd ((hrun _ hw).1 ⟨e, h⟩) (Nat.succ_ne_zero 2)

end Synapse
