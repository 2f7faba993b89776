import Mathlib.Tactic
import Synapse.Proofs.Ensembles

namespace Synapse

/-- What is built later contains what was built before. -/
def Build.Precedes (b b' : Build) : Prop :=
  b.vars.size ≤ b'.vars.size ∧ ∀ k, b'.Within k → b.Within k

namespace Build.Precedes

theorem refl (b : Build) : b.Precedes b := ⟨Nat.le_refl _, fun _ h => h⟩

theorem trans {b b' b'' : Build} (h : b.Precedes b') (h' : b'.Precedes b'') : b.Precedes b'' :=
  ⟨Nat.le_trans h.1 h'.1, fun k hk => h.2 k (h'.2 k hk)⟩

theorem of_plan {net : Network} {e : Ensemble} {first : TableId} {p : Plan net e first}
    {b b' : Build} {tys : List Ty} {roles : List Role} (h : (p.extend b).Grows b' tys roles) :
    b.Precedes b' := by
  refine ⟨?_, fun k hk => (hk.of_grows h).of_extend⟩
  rw [h.size]
  exact Nat.le_add_right _ _

end Build.Precedes

/-- The types of the vectors that the code of a layer reads and writes. -/
structure Kernel.Carries (k : Kernel) (input output width : Nat) : Prop where
  input : ∃ m, k.vars[input]?.map Variable.ty = some (.vector .real m)
  output : k.vars[output]?.map Variable.ty = some (.vectorOf .real width)

/-- The code of ensembles that cover some neurons appends the activations of these. -/
theorem Pass.Answers.lowerEnsembles {net : Network} (hw : net.WellFormed) (hc : net.Checked)
    {l : LayerId} {start : Nat} {es : List Ensemble} {ns : List NeuronId}
    (ht : net.Tiles l start es ns)
    (hplaced : ∀ (rank : Nat) (n : NeuronId), ns[rank]? = some n →
      ∃ x, net.neurons[n]? = some x ∧ x.position = start + rank)
    {input output width : Nat} (hstop : start + ns.length ≤ width)
    (hwidth : net.Bounded → width < UInt32.size) (hne : input ≠ output) {b : Build}
    (hinput : input < b.vars.size) (houtput : output < b.vars.size) :
    Answers net (Pass.lowerEnsembles input output es b) (Gives fun q => b.Precedes q.1 ∧
      ∀ k, q.1.Within k → k.Carries input output width → ∃ cs,
        codesOf k.arena.nodes q.2 = some cs ∧
          Appends net k input output b.vars.size start cs ns) := by
  induction ht generalizing b with
  | nil start =>
    refine pure ?_
    rintro q ⟨⟩
    exact ⟨.refl b, fun k _ _ => ⟨[], rfl, Appends.nil⟩⟩
  | @cons e es ns hl hcong ht ih =>
    rw [List.length_append] at hstop
    have hplaced' : ∀ (rank : Nat) (n : NeuronId), ns[rank]? = some n →
        ∃ x, net.neurons[n]? = some x ∧ x.position = e.stop + rank := by
      intro rank n hn
      obtain ⟨x, hx, hpos⟩ := hplaced (e.neurons.length + rank) n (by
        rw [List.getElem?_append_right (Nat.le_add_right _ _), Nat.add_sub_cancel_left, hn])
      exact ⟨x, hx, by rw [hpos, Ensemble.stop, Nat.add_assoc]⟩
    have hmembers : ∀ (rank : Nat) (n : NeuronId), e.neurons[rank]? = some n →
        ∃ x, net.neurons[n]? = some x ∧ x.position = e.start + rank := by
      intro rank n hn
      have hlt : rank < e.neurons.length := (List.getElem?_eq_some_iff.1 hn).1
      exact hplaced rank n (by rw [List.getElem?_append_left hlt, hn])
    have hestop : e.stop = e.start + e.neurons.length := rfl
    refine (lowerEnsemble hw.ordered e input output b).bindGives fun q hq => ?_
    obtain ⟨p, hg, hcode⟩ := hq
    have hprec : b.Precedes q.1 := .of_plan hg
    refine (ih hplaced' (by omega) (Nat.lt_of_lt_of_le hinput hprec.1)
      (Nat.lt_of_lt_of_le houtput hprec.1)).bindGives fun q' hq' => pure ?_
    obtain ⟨hprec', hrest⟩ := hq'
    rintro r ⟨⟩
    refine ⟨hprec.trans hprec', fun k hk hcarries => ?_⟩
    obtain ⟨cs, hcs, happends⟩ := hrest k hk hcarries
    have hkq := hprec'.2 k hk
    obtain ⟨m, hin⟩ := hcarries.input
    have hfirst := p.appends hw hc hcong hmembers hg hkq hinput houtput hne hin hcarries.output
      (by omega) hwidth
    refine ⟨_, codesOf_cons (code?_mono hkq.nodes _ hcode) hcs, ?_⟩
    exact hfirst.append happends hprec.1 hne houtput

section

variable {S : Type}

/-- The activations of a layer's neurons, given those of the layer before. -/
def Network.layerValues (net : Network) (I : Interpretation S) (layer : Layer) (V : List S) :
    Option (List S) :=
  layer.neurons.mapM fun n => net.fire I n (net.reading V n)

/-- The activations of the last of some layers, given those of the layer before the first. -/
def Network.propagate (net : Network) (I : Interpretation S) :
    List (Layer × LayerId) → List S → Option (List S)
  | [], V => some V
  | q :: rest, V => (net.layerValues I q.1 V).bind (net.propagate I rest)

end

/-- The code of a layer fills its vector. -/
theorem Appends.fills {net : Network} {k : Kernel} {input output n : Nat} {cs : List Code}
    {layer : Layer} (h : Appends net k input output n 0 cs layer.neurons) (hb : net.Bounded)
    (hcarries : k.Carries input output layer.neurons.length)
    (hwidth : layer.neurons.length < UInt32.size) {S : Type} {I : Interpretation S} {V : List S}
    {σ : Store S} {slots : Nat → Option (Word S)} (hV : σ.Holds k input (.vector V))
    (hslots : σ output = some (.vector slots)) (hfresh : ∀ v, n ≤ v → σ v = none) :
    Runs (Code.execs k I cs σ) (net.layerValues I layer V) fun bs τ =>
      (∃ slots', τ = σ.set output (.vector slots')) ∧ τ.Holds k output (.vector bs) := by
  have hrun := h.runs hb I V [] σ slots hV hslots (Store.filled_nil _) rfl hfresh
  have hlength := Kernel.length_vectorOf hcarries.output hwidth
  unfold Network.layerValues
  cases hbs : layer.neurons.mapM fun n => net.fire I n (net.reading V n) with
  | none =>
    rw [hbs] at hrun
    exact hrun
  | some bs =>
    rw [hbs] at hrun
    obtain ⟨τ, hτ, slots', rfl, hfilled⟩ := hrun
    refine Runs.ok hτ ⟨⟨slots', rfl⟩, ?_, slots', Store.set_same _ _ _, hfilled⟩
    rw [hlength, (mapM_eq_some_iff.1 hbs).length_eq]

/-- Code that computes some layers one after the other and leaves the activations of the last one in
the output. -/
structure Computes (net : Network) (k : Kernel) (input n : Nat) (cs : List Code)
    (layers : List (Layer × LayerId)) : Prop where
  runs : net.Bounded → ∀ {S : Type} (I : Interpretation S) (V : List S) (σ : Store S)
    (slots : Nat → Option (Word S)), σ.Holds k input (.vector V) →
    σ Kernel.outputVar = some (.vector slots) → (∀ v, n ≤ v → σ v = none) →
    Runs (Code.execs k I cs σ) (net.propagate I layers V) fun V' τ =>
      layers ≠ [] → τ.Holds k Kernel.outputVar (.vector V')
  typed : Code.AllWellTyped k.env cs ↔ ∀ q ∈ layers, ∀ n ∈ q.1.neurons, net.RealForward n
  recipes : ∀ q ∈ layers, ∀ n ∈ q.1.neurons, net.HasRecipe n
  inScope : ∀ defined, input ∈ defined → Code.AllScoped k defined cs

namespace Computes

variable {net : Network} {k : Kernel} {input n : Nat} {layer : Layer} {l : LayerId} {cs : List Code}

theorem nil : Computes net k input n [] [] :=
  ⟨fun _ _ _ _ _ _ _ _ _ => Runs.ok rfl fun h => absurd rfl h, by simp [Code.AllWellTyped],
    by simp, fun _ _ => trivial⟩

/-- The last layer fills the output. -/
theorem last (h : Appends net k input Kernel.outputVar n 0 cs layer.neurons)
    (hcarries : k.Carries input Kernel.outputVar layer.neurons.length)
    (hwidth : net.Bounded → layer.neurons.length < UInt32.size) :
    Computes net k input n cs [(layer, l)] := by
  refine ⟨fun hb S I V σ slots hV hslots hfresh => ?_, by simp [h.typed], by simpa using h.recipes,
    h.inScope⟩
  have hrun := h.fills hb hcarries (hwidth hb) (I := I) hV hslots hfresh
  exact hrun.imp_pure fun bs τ hτ _ => hτ.2

/-- Any other layer fills a vector of its own, which the rest reads. -/
theorem cons {m : Nat} {cs' : List Code} {rest : List (Layer × LayerId)}
    (h : Appends net k input n (n + 1) 0 cs layer.neurons)
    (hcarries : k.Carries input n layer.neurons.length)
    (hwidth : net.Bounded → layer.neurons.length < UInt32.size)
    (hrest : Computes net k n m cs' rest) (hnonempty : rest ≠ []) (hinput : input < n)
    (houtput : Kernel.outputVar < n) (hm : n + 1 ≤ m) :
    Computes net k input n (.define n :: cs ++ cs') ((layer, l) :: rest) := by
  refine ⟨fun hb S I V σ slots hV hslots hfresh => ?_, ?_,
    List.forall_mem_cons.2 ⟨h.recipes, hrest.recipes⟩, fun defined hin => ?_⟩
  · set σ₁ := σ.set n (.vector fun _ => none) with hσ₁
    have hV₁ : σ₁.Holds k input (.vector V) :=
      hV.congr (Store.set_other _ _ (Nat.ne_of_lt hinput))
    have hfresh₁ : ∀ v, n + 1 ≤ v → σ₁ v = none := by
      intro v hv
      rw [hσ₁, Store.set_other _ _ (Nat.ne_of_gt hv), hfresh v (Nat.le_of_succ_le hv)]
    rw [List.cons_append, Code.execs_cons (τ := σ₁) (by rw [Code.exec]), Code.execs_append]
    have hrun := h.fills hb hcarries (hwidth hb) (I := I) hV₁ (Store.set_same _ _ _) hfresh₁
    refine hrun.bind fun bs τ hτ => ?_
    obtain ⟨⟨slots', rfl⟩, hholds⟩ := hτ
    refine (hrest.runs hb I bs _ slots hholds ?_ fun v hv => ?_).imp fun V' τ' h _ => h hnonempty
    · rw [Store.set_other _ _ (Nat.ne_of_lt houtput), hσ₁,
        Store.set_other _ _ (Nat.ne_of_lt houtput), hslots]
    · have hv' : n + 1 ≤ v := Nat.le_trans hm hv
      rw [Store.set_other _ _ (Nat.ne_of_gt hv'), hfresh₁ v hv']
  · rw [List.cons_append, Code.AllWellTyped, Code.WellTyped, Code.allWellTyped_append, h.typed,
      hrest.typed, List.forall_mem_cons, true_and]
  · have hlayer := h.inScope (n :: defined) (List.mem_cons_of_mem _ hin)
    have hbelow := hrest.inScope _ (Code.subset_defines (n :: defined) cs List.mem_cons_self)
    exact ⟨Kernel.lt_of_ty hcarries.output, Code.allScoped_append.2 ⟨hlayer, hbelow⟩⟩

end Computes

theorem Build.precedes_declare (b : Build) (name : String) (ty : Ty) :
    b.Precedes (Emit.declare name ty b).2 := by
  refine ⟨by simp [Emit.declare], fun k hk => ⟨fun i t hi => hk.vars i t ?_, hk.nodes, hk.tables⟩⟩
  have hlt : i < (b.vars.toList.map Variable.ty).length := (List.getElem?_eq_some_iff.1 hi).1
  rw [Emit.declare, Array.toList_push, List.map_append, List.getElem?_append_left hlt, hi]

/-- The number of neurons in a layer. -/
def Network.width (net : Network) (l : LayerId) : Nat :=
  match net.layers[l]? with
  | some layer => layer.neurons.length
  | none => 0

theorem getElem?_of_drop_zipIdx {layers : Array Layer} {i : Nat} {layer : Layer} {l : LayerId}
    {rest : List (Layer × LayerId)} (h : layers.toList.zipIdx.drop i = (layer, l) :: rest) :
    l = i ∧ layers[i]? = some layer ∧ layers.toList.zipIdx.drop (i + 1) = rest := by
  have hget : layers.toList.zipIdx[i]? = some (layer, l) := by
    have := congrArg (·[0]?) h
    simpa using this
  rw [List.getElem?_zipIdx] at hget
  obtain ⟨x, hx, he⟩ := Option.map_eq_some_iff.1 hget
  obtain ⟨rfl, rfl⟩ : x = layer ∧ 0 + i = l := by simpa using he
  refine ⟨Nat.zero_add i, by simpa using hx, ?_⟩
  rw [← List.drop_drop, h, List.drop_one, List.tail_cons]

theorem drop_zipIdx_eq_nil {layers : Array Layer} {i : Nat} (h : i < layers.size) :
    layers.toList.zipIdx.drop (i + 1) = [] ↔ i = layers.size - 1 := by
  rw [List.drop_eq_nil_iff, List.length_zipIdx, Array.length_toList]
  omega

theorem Network.Bounded.width_lt {net : Network} (hb : net.Bounded) {l : LayerId} {layer : Layer}
    (hlayer : net.layers[l]? = some layer) : layer.neurons.length < UInt32.size :=
  hb.widths layer (Array.mem_of_getElem? hlayer)

/-- The code of one layer fills the vector `output`. -/
theorem Pass.Answers.lowerLayer {β : Type} {net : Network} (hw : net.WellFormed) (hc : net.Checked)
    {l : LayerId} {layer : Layer} (hlayer : net.layers[l]? = some layer) {input output : Nat}
    {b : Build} (hinput : input < b.vars.size) (houtput : output < b.vars.size)
    (hne : input ≠ output) {f : Build × List Stmt → Pass β} {R : β → Prop}
    (hf : ∀ q : Build × List Stmt, b.Precedes q.1 → (∀ k, q.1.Within k →
      k.Carries input output layer.neurons.length → ∃ cs, codesOf k.arena.nodes q.2 = some cs ∧
        Appends net k input output b.vars.size 0 cs layer.neurons) → Answers net (f q) (Gives R)) :
    Answers net (Pass.ensembles l >>= fun es => Pass.lowerEnsembles input output es b >>= f)
      (Gives R) := by
  have hplaced : ∀ (rank : Nat) (n : NeuronId), layer.neurons[rank]? = some n →
      ∃ x, net.neurons[n]? = some x ∧ x.position = 0 + rank := by
    intro rank n hn
    obtain ⟨x, hx, _, hpos⟩ := hw.placed l layer rank n hlayer hn
    exact ⟨x, hx, by rw [hpos, Nat.zero_add]⟩
  refine (ensembles hw l).bindGives fun es hes => ?_
  obtain ⟨layer', hlayer', htiles⟩ := hes
  obtain rfl : layer = layer' := by simpa [hlayer] using hlayer'
  exact (lowerEnsembles hw hc htiles hplaced (Nat.zero_add _).le (fun hb => hb.width_lt hlayer) hne
    hinput houtput).bindGives fun q hq => hf q hq.1 hq.2

/-- The code of all layers from some number on computes them. -/
theorem Pass.Answers.lowerLayers {net : Network} (hw : net.WellFormed) (hc : net.Checked)
    {layers : List (Layer × LayerId)} {i : Nat} (hlayers : net.layers.toList.zipIdx.drop i = layers)
    {input : Nat} {b : Build} (hinput : input < b.vars.size)
    (houtput : Kernel.outputVar < b.vars.size) (hne : input ≠ Kernel.outputVar) :
    Answers net (Pass.lowerLayers (net.layers.size - 1) input layers b) (Gives fun q =>
      b.Precedes q.1 ∧ ∀ k m, q.1.Within k →
        k.vars[input]?.map Variable.ty = some (.vector .real m) →
        k.vars[Kernel.outputVar]?.map Variable.ty =
          some (.vectorOf .real (net.width (net.layers.size - 1))) →
        ∃ cs, codesOf k.arena.nodes q.2 = some cs ∧
          Computes net k input b.vars.size cs layers) := by
  induction layers generalizing i input b with
  | nil =>
    refine pure ?_
    rintro q ⟨⟩
    exact ⟨.refl b, fun k m _ _ _ => ⟨[], rfl, Computes.nil⟩⟩
  | cons q rest ih =>
    obtain ⟨layer, l⟩ := q
    obtain ⟨rfl, hlayer, hrest⟩ := getElem?_of_drop_zipIdx hlayers
    have hlt : l < net.layers.size := (Array.getElem?_eq_some_iff.1 hlayer).1
    have hlast := drop_zipIdx_eq_nil hlt
    rw [hrest] at hlast
    unfold Pass.lowerLayers
    by_cases hl : l = net.layers.size - 1
    · obtain rfl : rest = [] := hlast.2 hl
      have hback : net.width (net.layers.size - 1) = layer.neurons.length := by
        rw [← hl, Network.width, hlayer]
      simp only [if_pos hl]
      refine lowerLayer hw hc hlayer hinput houtput hne fun q hprec hq => ?_
      change Answers net (Pure.pure (q.1, q.2 ++ [])) _
      refine pure ?_
      rintro r ⟨⟩
      refine ⟨hprec, fun k m hk hin hout => ?_⟩
      rw [hback] at hout
      have hcarries : k.Carries input Kernel.outputVar layer.neurons.length := ⟨⟨m, hin⟩, hout⟩
      obtain ⟨cs, hcs, happends⟩ := hq k hk hcarries
      exact ⟨cs, by rw [List.append_nil, hcs],
        .last happends hcarries fun hb => hb.width_lt hlayer⟩
    · simp only [if_neg hl]
      set b₁ := (StateT.run (Emit.declare s!"layer{l}" layer.vectorTy) b).2 with hb₁
      have hprec₁ : b.Precedes b₁ := b.precedes_declare _ _
      have hsize : b₁.vars.size = b.vars.size + 1 := by simp [hb₁, Emit.declare, StateT.run]
      have hnew : b.vars.size < b₁.vars.size := by rw [hsize]; exact Nat.lt_succ_self _
      refine lowerLayer hw hc hlayer (Nat.lt_of_lt_of_le hinput hprec₁.1) hnew
        (Nat.ne_of_lt hinput) fun q hprec hq => ?_
      refine (ih hrest (Nat.lt_of_lt_of_le hnew hprec.1)
        (Nat.lt_of_lt_of_le houtput (hprec₁.trans hprec).1)
        (Nat.ne_of_gt houtput)).bindGives fun q' hq' => pure ?_
      rintro r ⟨⟩
      refine ⟨hprec₁.trans (hprec.trans hq'.1), fun k m hk hin hout => ?_⟩
      have hkq := hq'.1.2 k hk
      have hown : k.vars[b.vars.size]?.map Variable.ty =
          some (.vectorOf .real layer.neurons.length) :=
        (hprec.2 k hkq).vars _ _ (by simp [hb₁, Emit.declare, StateT.run, Layer.vectorTy])
      have hcarries : k.Carries input b.vars.size layer.neurons.length := ⟨⟨m, hin⟩, hown⟩
      obtain ⟨cs, hcs, happends⟩ := hq k hkq hcarries
      obtain ⟨cs', hcs', hcomputes⟩ := hq'.2 k _ hk hown hout
      rw [hsize] at happends
      refine ⟨.define b.vars.size :: cs ++ cs', ?_, .cons happends hcarries
        (fun hb => hb.width_lt hlayer) hcomputes (fun hnil => hl (hlast.1 hnil)) hinput houtput
        (hsize ▸ hprec.1)⟩
      exact codesOf_append (codesOf_cons (by rw [Stmt.code?]; rfl) hcs) hcs'

/-- All layers become code, or all but the first, if that one only passes the input on. -/
theorem Network.loweredLayers_eq (net : Network) :
    net.loweredLayers = net.layers.toList.zipIdx.drop 0 ∨
      (∃ first, net.layers[0]? = some first ∧ net.passThrough first = true) ∧
        1 < net.layers.size ∧ net.loweredLayers = net.layers.toList.zipIdx.drop 1 := by
  unfold Network.loweredLayers
  split
  · rename_i first second rest hlayers
    have hdrop : net.layers.toList.zipIdx.drop 0 = (first.1, first.2) :: second :: rest := hlayers
    split
    · rename_i hpass
      refine .inr ⟨⟨first.1, (getElem?_of_drop_zipIdx hdrop).2.1, hpass⟩, ?_, by rw [hlayers]; rfl⟩
      have := congrArg List.length hlayers
      simp only [List.length_zipIdx, Array.length_toList, List.length_cons] at this
      omega
    · exact .inl hlayers.symm
  · exact .inl rfl

theorem getElem?_of_mem_loweredLayers {net : Network} {q : Layer × LayerId}
    (h : q ∈ net.loweredLayers) : net.layers[q.2]? = some q.1 := by
  have hmem : q ∈ net.layers.toList.zipIdx := by
    rcases net.loweredLayers_eq with hall | ⟨_, _, hrest⟩
    · rwa [hall] at h
    · rw [hrest] at h
      exact List.mem_of_mem_drop h
  simpa using List.mem_zipIdx_iff_getElem?.1 hmem

/-- A kernel that was lowered from a network. -/
structure Lowered (net : Network) (k : Kernel) : Prop where
  checked : net.Checked
  untyped : k.arena.types = ∅
  input : k.vars[Kernel.inputVar]?.map Variable.ty =
    some (.vectorOf .real (net.width 0))
  output : k.vars[Kernel.outputVar]?.map Variable.ty =
    some (.vectorOf .real (net.width (net.layers.size - 1)))
  code : ∃ cs, codesOf k.arena.nodes k.body = some cs ∧
    Computes net k Kernel.inputVar 2 cs net.loweredLayers

theorem Pass.Answers.lower {net : Network} (hw : net.WellFormed) :
    Answers net Pass.lower (Gives (Lowered net)) := by
  refine (check hw).bindGives fun _ hc => network (fun _ => rfl) ?_
  obtain ⟨i, hi⟩ : ∃ i, net.layers.toList.zipIdx.drop i = net.loweredLayers := by
    rcases net.loweredLayers_eq with h | h
    · exact ⟨0, h.symm⟩
    · exact ⟨1, h.2.2.symm⟩
  simp only
  refine (lowerLayers hw hc hi (by exact Nat.zero_lt_two) (by exact Nat.one_lt_two)
    (by decide)).bindGives fun q hq => ?_
  refine (report _ (P := Gives fun _ => True) fun _ _ => trivial).bindGives fun _ _ => pure ?_
  rintro k ⟨⟩
  obtain ⟨hprec, hcode⟩ := hq
  set k : Kernel := ⟨q.1.vars, { nodes := q.1.nodes }, q.1.tables, q.2⟩ with hk
  have hwithin : q.1.Within k :=
    ⟨fun i t hi => by simpa [hk] using hi, .refl _, fun _ _ h => h⟩
  have hstart := hprec.2 k hwithin
  have hwidth : ∀ l : Option Layer, (l.getD {}).vectorTy = .vectorOf .real
      (match l with | some layer => layer.neurons.length | none => 0) := by
    intro l
    cases l <;> rfl
  have hinput : k.vars[Kernel.inputVar]?.map Variable.ty = some (.vectorOf .real (net.width 0)) :=
    hstart.vars 0 _ (by rw [Network.width, ← hwidth]; rfl)
  have houtput : k.vars[Kernel.outputVar]?.map Variable.ty =
      some (.vectorOf .real (net.width (net.layers.size - 1))) :=
    hstart.vars 1 _ (by rw [Network.width, ← hwidth, ← Array.back?_eq_getElem?]; rfl)
  exact ⟨hc, rfl, hinput, houtput, hcode k _ hwithin hinput houtput⟩

end Synapse
