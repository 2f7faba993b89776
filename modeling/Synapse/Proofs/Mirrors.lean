import Mathlib.Tactic
import Synapse.Proofs.Outcomes

namespace Synapse

/-- A node that reads another neuron and has other operands. -/
def Node.rename (ρ : NeuronId → NeuronId) (f : NodeId → NodeId) : Node → Node
  | .literal c => .literal c
  | .unary op x => .unary op (f x)
  | .binary op l r => .binary op (f l) (f r)
  | .input n => .input (ρ n)
  | .reduce kind x => .reduce kind (f x)
  | .activate name x => .activate name (f x)
  | .var v => .var v
  | .element v x => .element v (f x)
  | .entry t x => .entry t (f x)

/-- Whether nodes are equal, or hold literals that `L` accepts for one another. -/
def Node.equalUpTo (L : Literal → Literal → Bool) : Node → Node → Bool
  | .literal c, .literal d => L c d
  | m, n => m == n

/-- A function that copies an expression from one arena to another, with all that it shares. Neurons
are renamed, and literals may differ as `L` says. -/
structure Copies (L : Literal → Literal → Bool) (ρ : NeuronId → NeuronId)
    (nodes nodes' : Array Node) (root : NodeId) (f : NodeId → NodeId) : Prop where
  injective : ∀ x y, (Arena.dag nodes).Reaches root x → (Arena.dag nodes).Reaches root y →
    f x = f y → x = y
  copied : ∀ x, (Arena.dag nodes).Reaches root x → ∃ m n, nodes[x]? = some m ∧
    nodes'[f x]? = some n ∧ (m.rename ρ f).equalUpTo L n = true

section

variable {L : Literal → Literal → Bool} {ρ : NeuronId → NeuronId} {f : NodeId → NodeId} {m n : Node}

theorem Node.operands_rename (m : Node) : (m.rename ρ f).operands = m.operands.map f := by
  cases m <;> rfl

/-- What a copied node is. -/
theorem Node.equalUpTo_rename (h : (m.rename ρ f).equalUpTo L n = true) :
    (∃ c d, m = .literal c ∧ n = .literal d ∧ L c d = true) ∨
      m.literal? = none ∧ n = m.rename ρ f := by
  cases m with
  | literal c =>
    cases n <;> simp_all [rename, equalUpTo]
  | _ =>
    right
    exact ⟨rfl, (beq_iff_eq.1 h).symm⟩

theorem Node.operands_copy (h : (m.rename ρ f).equalUpTo L n = true) :
    n.operands = m.operands.map f := by
  rcases equalUpTo_rename h with ⟨c, d, rfl, rfl, _⟩ | ⟨_, rfl⟩
  · rfl
  · exact m.operands_rename

theorem Literal.alike_of_sameKind {c d : Literal} (h : c.sameKind d = true) :
    Node.Alike (.literal c) (.literal d) := by
  cases c <;> cases d <;> simp only [sameKind, Bool.false_eq_true, beq_iff_eq] at h
  all_goals constructor
  exact h

theorem Literal.ty_eq_of_sameKind {c d : Literal} (h : c.sameKind d = true) : d.ty = c.ty := by
  cases c <;> cases d <;> simp_all [sameKind, ty]

theorem Literal.sameKind_of_beq {c d : Literal} (h : (c == d) = true) : c.sameKind d = true := by
  rw [← beq_iff_eq.1 h]
  cases c <;> simp [sameKind]

theorem Node.alike_copy (hL : ∀ c d, L c d = true → c.sameKind d = true)
    (h : (m.rename ρ f).equalUpTo L n = true) : m.Alike n := by
  rcases equalUpTo_rename h with ⟨c, d, rfl, rfl, hcd⟩ | ⟨hm, rfl⟩
  · exact Literal.alike_of_sameKind (hL c d hcd)
  · cases m with
    | literal c => cases hm
    | _ => constructor

theorem Node.input_copy_iff (hρ : Function.Injective ρ) (h : (m.rename ρ f).equalUpTo L n = true)
    {i : NeuronId} : n = .input (ρ i) ↔ m = .input i := by
  rcases equalUpTo_rename h with ⟨c, d, rfl, rfl, _⟩ | ⟨_, rfl⟩
  · simp
  · cases m <;> simp [rename, hρ.eq_iff]

end

theorem map_literals (nodes : Array Node) (root : NodeId) :
    (Arena.literals nodes root).map (·.2) =
      ((Arena.dag nodes).preorder root).filterMap fun (id : NodeId) =>
        nodes[id]?.bind Node.literal? := by
  rw [Arena.literals, List.map_filterMap]
  apply List.filterMap_congr
  intro id _
  cases nodes[id]?.bind Node.literal? <;> rfl

namespace Copies

variable {L : Literal → Literal → Bool} {ρ : NeuronId → NeuronId} {nodes nodes' : Array Node}
  {root : NodeId} {f : NodeId → NodeId}

theorem renames (h : Copies L ρ nodes nodes' root f) (ho : Arena.Ordered nodes)
    (ho' : Arena.Ordered nodes') :
    (Arena.dag nodes).Renames (Arena.dag nodes') ((Arena.dag nodes).Reaches root) f := by
  refine ⟨fun x hx y hy => hx.trans (.operand hy), fun x hx => ?_, h.injective⟩
  obtain ⟨m, n, hm, hn, hcopy⟩ := h.copied x hx
  change Arena.operandsOf nodes' (f x) = (Arena.operandsOf nodes x).map f
  rw [Arena.operandsOf_eq ho hm, Arena.operandsOf_eq ho' hn, Node.operands_copy hcopy]

/-- A copy has the literals of the original in the same order. -/
theorem literals (h : Copies L ρ nodes nodes' root f) (ho : Arena.Ordered nodes)
    (ho' : Arena.Ordered nodes') : List.Forall₂ (fun c d => L c d = true)
      ((Arena.literals nodes root).map (·.2)) ((Arena.literals nodes' (f root)).map (·.2)) := by
  have horder := (h.renames ho ho').preorder (.refl _ root)
  rw [map_literals, map_literals, horder, List.filterMap_map]
  apply forall₂_filterMap
  intro x hx
  obtain ⟨m, n, hm, hn, hcopy⟩ := h.copied x (Dag.mem_preorder.1 hx)
  simp only [Function.comp_apply, hm, hn, Option.bind_some]
  rcases Node.equalUpTo_rename hcopy with ⟨c, d, rfl, rfl, hcd⟩ | ⟨hnone, rfl⟩
  · exact .some hcd
  · cases m with
    | literal c => cases hnone
    | _ => exact .none

theorem inputNeurons (h : Copies L ρ nodes nodes' root f) (ho : Arena.Ordered nodes)
    (ho' : Arena.Ordered nodes') :
    Arena.inputNeurons nodes' (f root) = (Arena.inputNeurons nodes root).map ρ := by
  have horder := (h.renames ho ho').preorder (.refl _ root)
  rw [Arena.inputNeurons, Arena.inputNeurons, horder, List.filterMap_map, List.map_filterMap]
  apply List.filterMap_congr
  intro x hx
  obtain ⟨m, n, hm, hn, hcopy⟩ := h.copied x (Dag.mem_preorder.1 hx)
  simp only [Function.comp_apply, hm, hn]
  rcases Node.equalUpTo_rename hcopy with ⟨c, d, rfl, rfl, _⟩ | ⟨_, rfl⟩
  · rfl
  · cases m <;> rfl

end Copies

/-- Tables that are equal, or hold literals that `L` accepts for one another. -/
structure Table.EqualUpTo (L : Literal → Literal → Bool) (t t' : Table) : Prop where
  elem : t'.elem = t.elem
  first : t'.first = t.first
  entries : List.Forall₂ (fun c d => L c d = true) t.entries t'.entries

theorem Table.EqualUpTo.eq {t t' : Table} (h : t.EqualUpTo (fun c d => c == d) t') : t = t' := by
  obtain ⟨helem, hfirst, hentries⟩ := h
  have heq := hentries.imp fun c d hcd => beq_iff_eq.1 hcd
  rw [List.forall₂_eq_eq_eq] at heq
  cases t
  cases t'
  simp_all

/-- An ensemble of other neurons. -/
def Ensemble.rename (ρ : NeuronId → NeuronId) (e : Ensemble) : Ensemble :=
  { e with representative := ρ e.representative, others := e.others.map ρ }

@[simp]
theorem Ensemble.neurons_rename (ρ : NeuronId → NeuronId) (e : Ensemble) :
    (e.rename ρ).neurons = e.neurons.map ρ := rfl

@[simp]
theorem Ensemble.stop_rename (ρ : NeuronId → NeuronId) (e : Ensemble) :
    (e.rename ρ).stop = e.stop := by
  rw [stop, stop, neurons_rename, List.length_map]
  rfl

/-- The code of an ensemble depends on where its members stand, not on which neurons they are. -/
theorem Emit.ensemble_rename (ρ : NeuronId → NeuronId) (e : Ensemble) (site : VarId → Site)
    (r : Recipe) (output : VarId) :
    Emit.ensemble (e.rename ρ) site r output = Emit.ensemble e site r output := by
  have hstart : (e.rename ρ).start = e.start := rfl
  simp only [Emit.ensemble, hstart, Ensemble.stop_rename]

/-- Kernels under construction that differ only in what their tables hold. -/
structure Build.SameCode (b b' : Build) : Prop where
  eq : b' = { b with tables := b'.tables }
  size : b'.tables.size = b.tables.size

namespace Build.SameCode

variable {b b' : Build}

theorem append (h : b.SameCode b') {ts ts' : List Table} (hlength : ts'.length = ts.length) :
    { b with tables := b.tables ++ ts.toArray }.SameCode
      { b' with tables := b'.tables ++ ts'.toArray } := by
  constructor
  · rw [h.eq]
  · simp [h.size, hlength]

/-- What does not look at tables does the same in both. -/
theorem emit (h : b.SameCode b') {α : Type} {x : Emit α} (hx : x.Blind b) :
    (x b).2.SameCode (x b').2 ∧ (x b').1 = (x b).1 := by
  have htables : (x b).2.tables = b.tables := by
    have hsame := congrArg (·.2.tables) (hx b.tables)
    exact hsame
  have hboth := hx b'.tables
  rw [← h.eq] at hboth
  rw [hboth]
  exact ⟨⟨rfl, by rw [htables, h.size]⟩, rfl⟩

end Build.SameCode

/-- A defect that names other neurons. -/
def Defect.rename (ρ : NeuronId → NeuronId) : Defect → Defect
  | .arity n m k l => .arity (ρ n) (ρ m) k l
  | .literalCount n own wanted => .literalCount (ρ n) own wanted
  | d => d

/-- Two results that are alike: values that `R` relates, the same error, or the same defect up to
the numbers of neurons. -/
inductive EndsAlike (ρ : NeuronId → NeuronId) {α β : Type} (R : α → β → Prop) :
    Except Failure α → Except Failure β → Prop
  | ok {a : α} {b : β} (h : R a b) : EndsAlike ρ R (.ok a) (.ok b)
  | error (e : Error) : EndsAlike ρ R (.error (.error e)) (.error (.error e))
  | defect (d : Defect) : EndsAlike ρ R (.error (.defect d)) (.error (.defect (d.rename ρ)))

namespace EndsAlike

variable {ρ : NeuronId → NeuronId} {α β γ δ : Type} {R : α → β → Prop} {S : γ → δ → Prop}
  {r : Except Failure α} {r' : Except Failure β}

theorem bind {f : α → Except Failure γ} {g : β → Except Failure δ} (h : EndsAlike ρ R r r')
    (hfg : ∀ a b, r = .ok a → R a b → EndsAlike ρ S (f a) (g b)) :
    EndsAlike ρ S (r >>= f) (r' >>= g) := by
  cases h with
  | ok h => exact hfg _ _ rfl h
  | error e => exact .error e
  | defect d => exact .defect d

theorem of_eq {r' : Except Failure α} (h : r' = r) (hr : ∀ d, r ≠ .error (.defect d)) :
    EndsAlike ρ Eq r r' := by
  rw [h]
  cases r with
  | ok a => exact .ok rfl
  | error e =>
    cases e with
    | error e => exact .error e
    | defect d => exact absurd rfl (hr d)

/-- Where no neuron has another number, results that are alike are equal. -/
theorem eq {r' : Except Failure α} (h : EndsAlike id Eq r r') : r = r' := by
  cases h with
  | ok h => rw [h]
  | error e => rfl
  | defect d => cases d <;> rfl

theorem imp {S : α → β → Prop} (h : EndsAlike ρ R r r')
    (hrs : ∀ a b, r = .ok a → r' = .ok b → R a b → S a b) : EndsAlike ρ S r r' := by
  cases h with
  | ok h => exact .ok (hrs _ _ rfl rfl h)
  | error e => exact .error e
  | defect d => exact .defect d

end EndsAlike

namespace Network

/-- A network whose neurons have other numbers, but the same kinds and places and the same sources
up to that. Their expressions are copies, in which literals may differ as `L` says. -/
structure Mirrors (L : Literal → Literal → Bool) (ρ : NeuronId → NeuronId) (net net' : Network) :
    Prop where
  injective : Function.Injective ρ
  layers : net'.layers.toList.map Layer.neurons = net.layers.toList.map fun x => x.neurons.map ρ
  neurons : ∀ n x, net.neurons[n]? = some x → ∃ y, net'.neurons[ρ n]? = some y ∧
    y.kind = x.kind ∧ y.sources = x.sources.map ρ ∧
    Option.Rel (fun v w => ∃ f, f v = w ∧ Copies L ρ net.arena.nodes net'.arena.nodes v f)
      x.forward y.forward

namespace Mirrors

variable {L : Literal → Literal → Bool} {ρ : NeuronId → NeuronId} {net net' : Network}
  {n m : NeuronId} {x y : Neuron}

theorem layer (h : net.Mirrors L ρ net') {l : LayerId} {layer : Layer}
    (hl : net.layers[l]? = some layer) :
    ∃ layer', net'.layers[l]? = some layer' ∧ layer'.neurons = layer.neurons.map ρ := by
  have hget := congrArg (·[l]?) h.layers
  simp only [List.getElem?_map, Array.getElem?_toList, hl, Option.map_some] at hget
  exact Option.map_eq_some_iff.1 hget

/-- A neuron and its mirror image. -/
structure Image (L : Literal → Literal → Bool) (ρ : NeuronId → NeuronId) (net net' : Network)
    (x y : Neuron) : Prop where
  layer : y.layer = x.layer
  position : y.position = x.position
  isInput : y.isInput = x.isInput
  inputTy : y.inputTy = x.inputTy
  sources : y.sources = x.sources.map ρ
  forward : Option.Rel
    (fun v w => ∃ f, f v = w ∧ Copies L ρ net.arena.nodes net'.arena.nodes v f) x.forward y.forward

theorem image (h : net.Mirrors L ρ net') (hw : net.WellFormed) (hw' : net'.WellFormed)
    (hx : net.neurons[n]? = some x) :
    ∃ y, net'.neurons[ρ n]? = some y ∧ Image L ρ net net' x y := by
  obtain ⟨y, hy, hkind, hsources, hforward⟩ := h.neurons n x hx
  obtain ⟨layer, hl, hn⟩ := hw.listed n x hx
  obtain ⟨layer', hl', hns⟩ := h.layer hl
  have hn' : layer'.neurons[x.position]? = some (ρ n) := by
    rw [hns, List.getElem?_map, hn, Option.map_some]
  obtain ⟨y', hy', hlayer, hposition⟩ := hw'.placed _ _ _ _ hl' hn'
  obtain rfl : y = y' := Option.some.inj (hy.symm.trans hy')
  have hinput : y.isInput = x.isInput := by rw [Neuron.isInput, Neuron.isInput, hkind]
  refine ⟨y, hy, hlayer, hposition, hinput, ?_, hsources, hforward⟩
  rw [Neuron.inputTy, Neuron.inputTy, hinput, hsources, List.length_map]

theorem forward_some (h : net.Mirrors L ρ net') {v : NodeId} (hv : net.forward? n = some v) :
    ∃ f, net'.forward? (ρ n) = some (f v) ∧ Copies L ρ net.arena.nodes net'.arena.nodes v f := by
  obtain ⟨x, hx, hxv⟩ := Option.bind_eq_some_iff.1 hv
  obtain ⟨y, hy, _, _, hforward⟩ := h.neurons n x hx
  rw [hxv] at hforward
  generalize hyw : y.forward = w at hforward
  cases hforward with
  | some hcopy =>
    obtain ⟨f, rfl, hf⟩ := hcopy
    exact ⟨f, by simp [forward?, hy, hyw], hf⟩

theorem forward_none (h : net.Mirrors L ρ net') (hx : net.neurons[n]? = some x)
    (hv : net.forward? n = none) : net'.forward? (ρ n) = none := by
  obtain ⟨y, hy, _, _, hforward⟩ := h.neurons n x hx
  have hxv : x.forward = none := by simpa [forward?, hx] using hv
  rw [hxv] at hforward
  generalize hyw : y.forward = w at hforward
  cases hforward
  simp [forward?, hy, hyw]

section

variable (h : net.Mirrors L ρ net') (hw : net.WellFormed) (hw' : net'.WellFormed)

include h hw hw'

theorem gap? (hx : net.neurons[n]? = some x) : net'.gap? (ρ n) = net.gap? n := by
  obtain ⟨y, hy, himage⟩ := h.image hw hw' hx
  have hforward := himage.forward
  simp only [Network.gap?, hx, hy, Option.bind_some, himage.layer, himage.position]
  generalize x.forward = v at hforward
  generalize y.forward = w at hforward
  cases hforward <;> rfl

theorem positionOf (hx : net.neurons[n]? = some x) : net'.positionOf (ρ n) = net.positionOf n := by
  obtain ⟨y, hy, himage⟩ := h.image hw hw' hx
  simp only [Network.positionOf, hx, hy, himage.position]

theorem sourcesOf (hx : net.neurons[n]? = some x) : net'.sourcesOf (ρ n) = net.sourcesOf n := by
  obtain ⟨y, hy, himage⟩ := h.image hw hw' hx
  rw [sourcesOf_eq hx, sourcesOf_eq hy, sourcePositions, sourcePositions, himage.sources,
    List.map_map]
  apply List.map_congr_left
  intro m hm
  obtain ⟨z, hz⟩ := hw.sourced n x hx m hm
  exact positionOf h hw hw' hz

theorem literalsOf (hx : net.neurons[n]? = some x) :
    List.Forall₂ (fun c d => L c d = true) (net.literalsOf n) (net'.literalsOf (ρ n)) := by
  cases hv : net.forward? n with
  | none =>
    simp only [Network.literalsOf, hv, h.forward_none hx hv]
    exact .nil
  | some v =>
    obtain ⟨f, hfv, hf⟩ := h.forward_some hv
    rw [literalsOf_eq hv, literalsOf_eq hfv]
    exact hf.literals hw.ordered hw'.ordered

theorem map_sourcesOf {γ : Type} (g : List Nat → γ) {ns : List NeuronId}
    (hns : ∀ n ∈ ns, ∃ x, net.neurons[n]? = some x) :
    (ns.map ρ).map (fun n => g (net'.sourcesOf n)) = ns.map fun n => g (net.sourcesOf n) := by
  rw [List.map_map]
  apply List.map_congr_left
  intro n hn
  obtain ⟨x, hx⟩ := hns n hn
  rw [Function.comp_apply, sourcesOf h hw hw' hx]

theorem stride? {e : Ensemble} (he : ∀ n ∈ e.neurons, ∃ x, net.neurons[n]? = some x) :
    net'.stride? (e.rename ρ) = net.stride? e := by
  rw [Network.stride?, Network.stride?, Ensemble.neurons_rename,
    map_sourcesOf h hw hw' (fun ps => ps.head?.map Int.ofNat) he]

theorem baseTable {e : Ensemble} (he : ∀ n ∈ e.neurons, ∃ x, net.neurons[n]? = some x) :
    net'.baseTable (e.rename ρ) = net.baseTable e := by
  rw [Network.baseTable, Network.baseTable, Ensemble.neurons_rename,
    map_sourcesOf h hw hw' (fun ps => Literal.int (ps.headD 0 : Nat)) he]
  rfl

/-- An expression that reads its own inputs only is like its copy. -/
theorem likens (hL : ∀ c d, L c d = true → c.sameKind d = true) (hb : net.Built) {v : NodeId}
    {f : NodeId → NodeId} (hx : net.neurons[n]? = some x) (hown : ReadsOwn net.arena.nodes n v)
    (hf : Copies L ρ net.arena.nodes net'.arena.nodes v f) :
    Likens net.arena.nodes net.env net'.arena.nodes net'.env
      ((Arena.dag net.arena.nodes).Reaches v) f := by
  obtain ⟨y, hy, himage⟩ := h.image hw hw' hx
  refine ⟨hf.renames hw.ordered hw'.ordered, fun id hid => ?_, fun id i hid hi => ?_⟩
  · obtain ⟨a, b, ha, hb', hcopy⟩ := hf.copied id hid
    exact ⟨a, b, ha, hb', Node.alike_copy hL hcopy, (hb.plain id a ha).readsKernel⟩
  · obtain rfl : i = n := hown id i hid hi
    obtain ⟨a, b, ha, hb', hcopy⟩ := hf.copied id hid
    obtain rfl : a = .input i := Option.some.inj (ha.symm.trans hi)
    obtain rfl := (Node.input_copy_iff h.injective hcopy).2 rfl
    rw [typeOf_input hw.ordered hi hx, typeOf_input hw'.ordered hb' hy, himage.inputTy]

/-- The check of a neuron comes to the same in both networks. -/
theorem checkingNeuron (hL : ∀ c d, L c d = true → c.sameKind d = true) (hb : net.Built)
    (hx : net.neurons[n]? = some x) (l : LayerId) (p : Nat) :
    net'.checkingNeuron l p (ρ n) = net.checkingNeuron l p n := by
  unfold Network.checkingNeuron
  cases hv : net.forward? n with
  | none => rw [h.forward_none hx hv]
  | some v =>
    obtain ⟨f, hfv, hf⟩ := h.forward_some hv
    have hforeign : (Arena.inputNeurons net'.arena.nodes (f v)).any (· != ρ n) =
        (Arena.inputNeurons net.arena.nodes v).any (· != n) := by
      have hne : ∀ i, (ρ i != ρ n) = (i != n) := by
        intro i
        rw [Bool.eq_iff_iff]
        simp [h.injective.eq_iff]
      rw [hf.inputNeurons hw.ordered hw'.ordered, List.any_map]
      simp only [Function.comp_def, hne]
    simp only [hfv, hforeign]
    split
    · rfl
    · rename_i hown
      have hlikens := likens h hw hw' hL hb hx (readsOwn_of_any hown) hf
      rw [hlikens.typeOf_eq hw.ordered hw'.ordered (.refl _ v)]

theorem passesInput (hx : net.neurons[n]? = some x) :
    net'.passesInput (ρ n) = net.passesInput n := by
  obtain ⟨y, hy, himage⟩ := h.image hw hw' hx
  have hforward := himage.forward
  simp only [Network.passesInput, hx, hy, himage.isInput]
  generalize x.forward = v at hforward ⊢
  generalize y.forward = w at hforward ⊢
  cases hforward with
  | none => rfl
  | @some v _ hcopy =>
    obtain ⟨f, rfl, hf⟩ := hcopy
    obtain ⟨a, b, ha, hb, hcopy⟩ := hf.copied v (.refl _ v)
    have hinput : (some b == some (.input (ρ n))) = (some a == some (.input n)) := by
      rw [Bool.eq_iff_iff, beq_iff_eq, beq_iff_eq, Option.some_inj, Option.some_inj,
        Node.input_copy_iff h.injective hcopy]
    simp only [ha, hb, hinput]

end

/-- A layer and its mirror image. -/
structure Facing (ρ : NeuronId → NeuronId) (net : Network) (p q : Layer × LayerId) : Prop where
  there : net.layers[p.2]? = some p.1
  neurons : q.1.neurons = p.1.neurons.map ρ
  number : q.2 = p.2

theorem facing_zipIdx (h : net.Mirrors L ρ net') :
    List.Forall₂ (Facing ρ net) net.layers.toList.zipIdx net'.layers.toList.zipIdx := by
  have hlayers : List.Forall₂ (fun x y => y.neurons = x.neurons.map ρ) net.layers.toList
      net'.layers.toList := by
    have hflip : List.Forall₂ Eq (net'.layers.toList.map Layer.neurons)
        (net.layers.toList.map fun x => x.neurons.map ρ) := by
      rw [h.layers, List.forall₂_eq_eq_eq]
    rw [List.forall₂_map_left_iff, List.forall₂_map_right_iff] at hflip
    exact hflip.flip
  have hthere : ∀ p ∈ net.layers.toList.zipIdx, net.layers[p.2]? = some p.1 := by
    rintro ⟨layer, l⟩ hp
    simpa [List.mk_mem_zipIdx_iff_getElem?] using hp
  have hboth := (List.forall₂_and_left _ _).2 ⟨hthere, forall₂_zipIdx hlayers 0⟩
  exact hboth.imp fun p q hpq => ⟨hpq.1, hpq.2.1, hpq.2.2⟩

section

variable (h : net.Mirrors L ρ net') (hw : net.WellFormed) (hw' : net'.WellFormed)

include h hw hw'

/-- Both networks pass the type check, or neither does. -/
theorem checking (hL : ∀ c d, L c d = true → c.sameKind d = true) (hb : net.Built) :
    net'.checking = net.checking := by
  apply forM_eq_of_forall₂
  apply h.facing_zipIdx.imp
  intro p q hpq
  rw [hpq.neurons, hpq.number, List.zipIdx_map]
  apply forM_eq_of_forall₂
  rw [List.forall₂_map_right_iff, List.forall₂_same]
  intro r hr
  obtain ⟨x, hx, _⟩ := hw.neuron_of_mem hpq.there (List.fst_mem_of_mem_zipIdx hr)
  exact checkingNeuron h hw hw' hL hb hx p.2 r.2

theorem loweredLayers : List.Forall₂ (Facing ρ net) net.loweredLayers net'.loweredLayers := by
  have hall := h.facing_zipIdx
  have hpass : ∀ p q, Facing ρ net p q → net'.passThrough q.1 = net.passThrough p.1 := by
    intro p q hpq
    rw [passThrough, passThrough, hpq.neurons, List.all_map, Bool.eq_iff_iff, List.all_eq_true,
      List.all_eq_true]
    refine forall₂_congr fun n hn => ?_
    obtain ⟨x, hx, _⟩ := hw.neuron_of_mem hpq.there hn
    rw [Function.comp_apply, passesInput h hw hw' hx]
  unfold Network.loweredLayers
  generalize net.layers.toList.zipIdx = ps at hall ⊢
  generalize net'.layers.toList.zipIdx = qs at hall ⊢
  cases hall with
  | nil => exact .nil
  | @cons p q ps qs hpq hrest =>
    cases hrest with
    | nil => exact .cons hpq .nil
    | cons hpq' hrest' =>
      simp only [hpass p q hpq]
      split
      · exact .cons hpq' hrest'
      · exact .cons hpq (.cons hpq' hrest')

end

section

variable (h : net.Mirrors L ρ net') (hL : ∀ c d, L c d = true → c.sameKind d = true)
  (hr : net.Ready) (hr' : net'.Ready)

include h hL hr hr'

/-- The expression of a neuron is like that of its mirror image. -/
theorem likens_forward {v : NodeId} (hv : net.forward? n = some v) :
    ∃ f, net'.forward? (ρ n) = some (f v) ∧ Copies L ρ net.arena.nodes net'.arena.nodes v f ∧
      Likens net.arena.nodes net.env net'.arena.nodes net'.env
        ((Arena.dag net.arena.nodes).Reaches v) f := by
  obtain ⟨x, hx, _⟩ := Option.bind_eq_some_iff.1 hv
  obtain ⟨f, hfv, hf⟩ := h.forward_some hv
  exact ⟨f, hfv, hf,
    likens h hr.wellFormed hr'.wellFormed hL hr.built hx (hr.checked n v hv).1 hf⟩

theorem oneShape (hx : net.neurons[n]? = some x) (hy : net.neurons[m]? = some y) :
    net'.oneShape (ρ n) (ρ m) = net.oneShape n m := by
  obtain ⟨x', hx', _⟩ := h.neurons n x hx
  obtain ⟨y', hy', _⟩ := h.neurons m y hy
  rw [Bool.eq_iff_iff, oneShape_iff hr'.wellFormed.ordered (hr'.owned hx') (hr'.owned hy'),
    oneShape_iff hr.wellFormed.ordered (hr.owned hx) (hr.owned hy)]
  -- Either way the likeness is carried along the two copies: there by one, back by the other.
  constructor
  · rintro ⟨v', w', g, hv', hw', rfl, hg⟩
    cases hv : net.forward? n with
    | none => cases (h.forward_none hx hv).symm.trans hv'
    | some v =>
      cases hw : net.forward? m with
      | none => cases (h.forward_none hy hw).symm.trans hw'
      | some w =>
        obtain ⟨f, hfv, _, hf⟩ := likens_forward h hL hr hr' hv
        obtain ⟨k, hkw, _, hk⟩ := likens_forward h hL hr hr' hw
        obtain rfl : f v = v' := Option.some.inj (hfv.symm.trans hv')
        have hgw : k w = g (f v) := Option.some.inj (hkw.symm.trans hw')
        obtain ⟨k', hinv, hback⟩ := hk.symm
        have hthere := hf.trans (matches_iff_likens.1 hg)
        rw [hgw] at hback
        refine ⟨v, w, k' ∘ g ∘ f, rfl, rfl, ?_, matches_iff_likens.2 (hthere.trans hback)⟩
        exact (congrArg k' hgw.symm).trans (hinv w (.refl _ w))
  · rintro ⟨v, w, g, hv, hw, rfl, hg⟩
    obtain ⟨f, hfv, _, hf⟩ := likens_forward h hL hr hr' hv
    obtain ⟨k, hkw, _, hk⟩ := likens_forward h hL hr hr' hw
    obtain ⟨f', hinv, hback⟩ := hf.symm
    have hvv : f' (f v) = v := hinv v (.refl _ v)
    have hg' := matches_iff_likens.1 hg
    rw [← hvv] at hg' hk
    have hthere := (hback.trans hg').trans hk
    refine ⟨f v, k (g v), k ∘ g ∘ f', hfv, hkw, ?_, matches_iff_likens.2 hthere⟩
    rw [Function.comp_apply, Function.comp_apply, hvv]

theorem merging (hx : net.neurons[n]? = some x) (hy : net.neurons[m]? = some y) :
    EndsAlike ρ (fun a b => b = a) (net.merging n m) (net'.merging (ρ n) (ρ m)) := by
  have hshape := oneShape h hL hr hr' hx hy
  have hn := sourcesOf h hr.wellFormed hr'.wellFormed hx
  have hm := sourcesOf h hr.wellFormed hr'.wellFormed hy
  have hclash : net'.Clash (ρ n) (ρ m) ↔ net.Clash n m := by
    rw [Network.Clash, Network.Clash, hshape, hn, hm]
  simp only [Network.merging, hclash, hshape, hn, hm]
  split
  · exact .defect _
  · exact .ok rfl

theorem runs (current : Ensemble) (rest : List NeuronId)
    (hcurrent : ∃ x, net.neurons[current.representative]? = some x)
    (hrest : ∀ n ∈ rest, ∃ x, net.neurons[n]? = some x) :
    EndsAlike ρ (fun es es' => es' = es.map (Ensemble.rename ρ)) (net.runs current rest)
      (net'.runs (current.rename ρ) (rest.map ρ)) := by
  induction rest generalizing current with
  | nil => exact .ok rfl
  | cons n rest ih =>
    obtain ⟨x, hx⟩ := hrest n List.mem_cons_self
    obtain ⟨y, hy⟩ := hcurrent
    have hbelow : ∀ m ∈ rest, ∃ z, net.neurons[m]? = some z :=
      fun m hm => hrest m (List.mem_cons_of_mem _ hm)
    apply (merging h hL hr hr' hx hy).bind
    rintro _ same _ rfl
    cases same with
    | true =>
      have hnext := ih { current with others := current.others ++ [n] } ⟨y, hy⟩ hbelow
      rw [Ensemble.rename, List.map_append] at hnext
      exact hnext
    | false =>
      simp only [Bool.false_eq_true, if_false, Ensemble.stop_rename]
      apply (ih ⟨current.layer, current.stop, n, []⟩ ⟨x, hx⟩ hbelow).bind
      rintro es _ _ rfl
      exact .ok rfl

/-- A layer is grouped as its mirror image is. -/
theorem grouping (l : LayerId) (ns : List NeuronId)
    (hns : ∀ n ∈ ns, ∃ x, net.neurons[n]? = some x) :
    EndsAlike ρ (fun es es' => es' = es.map (Ensemble.rename ρ)) (net.grouping l ns)
      (net'.grouping l (ns.map ρ)) := by
  cases ns with
  | nil => exact .ok rfl
  | cons n rest =>
    exact runs h hL hr hr' ⟨l, 0, n, []⟩ rest (hns n List.mem_cons_self)
      fun m hm => hns m (List.mem_cons_of_mem _ hm)

theorem groupings {ps qs : List (Layer × LayerId)} (hpq : List.Forall₂ (Facing ρ net) ps qs) :
    EndsAlike ρ (fun es es' => es' = es.map (Ensemble.rename ρ)) (net.groupings ps)
      (net'.groupings qs) := by
  induction hpq with
  | nil => exact .ok rfl
  | @cons p q ps qs hp _ ih =>
    have hns : ∀ n ∈ p.1.neurons, ∃ x, net.neurons[n]? = some x := by
      intro n hn
      obtain ⟨x, hx, _⟩ := hr.wellFormed.neuron_of_mem hp.there hn
      exact ⟨x, hx⟩
    rw [Network.groupings, Network.groupings, hp.neurons, hp.number]
    apply (grouping h hL hr hr' p.2 p.1.neurons hns).bind
    rintro es _ _ rfl
    apply ih.bind
    rintro below _ _ rfl
    exact .ok (by rw [List.map_append])

theorem recipe (hx : net.neurons[n]? = some x) : net'.recipe (ρ n) = net.recipe n := by
  cases hv : net.forward? n with
  | none => simp only [Network.recipe, hv, h.forward_none hx hv]
  | some v =>
    obtain ⟨f, hfv, _, hf⟩ := likens_forward h hL hr hr' hv
    obtain ⟨s, hs⟩ := (hr.checked n v hv).2
    obtain ⟨r, hrecipe⟩ := exists_recipe hr.wellFormed hr.built hs
    have hrecipe' := (hf.recipeOf_iff hr.wellFormed.ordered hr'.wellFormed.ordered).2 hrecipe
    rw [hrecipe.recipe_eq hv, hrecipe'.recipe_eq hfv]

/-- The tables for literals differ in their entries only. -/
theorem literalTables {e : Ensemble} (he : ∀ n ∈ e.neurons, ∃ x, net.neurons[n]? = some x) :
    List.Forall₂ (Table.EqualUpTo L) (net.literalTables e) (net'.literalTables (e.rename ρ)) := by
  have hliterals : ∀ n ∈ e.neurons, List.Forall₂ (fun c d => L c d = true) (net.literalsOf n)
      (net'.literalsOf (ρ n)) := by
    intro n hn
    obtain ⟨x, hx⟩ := he n hn
    exact literalsOf h hr.wellFormed hr'.wellFormed hx
  have hfirst := hliterals e.representative List.mem_cons_self
  rw [Network.literalTables, Network.literalTables, List.forall₂_map_left_iff,
    List.forall₂_map_right_iff]
  apply (forall₂_zipIdx hfirst 0).imp
  rintro ⟨c, _⟩ ⟨d, i⟩ ⟨hcd, rfl⟩
  refine ⟨Literal.ty_eq_of_sameKind (hL c d hcd), rfl, ?_⟩
  rw [Ensemble.neurons_rename, List.filterMap_map]
  apply forall₂_filterMap
  intro n hn
  exact rel_getElem? (hliterals n hn) i

theorem baseTables {e : Ensemble} (he : ∀ n ∈ e.neurons, ∃ x, net.neurons[n]? = some x) :
    net'.baseTables (e.rename ρ) = net.baseTables e := by
  obtain ⟨x, hx⟩ := he e.representative List.mem_cons_self
  have hrecipe : net'.recipe (e.rename ρ).representative = net.recipe e.representative :=
    recipe h hL hr hr' hx
  have hstride := stride? h hr.wellFormed hr'.wellFormed he
  have htable := baseTable h hr.wellFormed hr'.wellFormed he
  simp only [Network.baseTables, hrecipe, hstride, htable]

theorem wiring {e : Ensemble} (he : ∀ n ∈ e.neurons, ∃ x, net.neurons[n]? = some x)
    (next : TableId) : net'.wiring (e.rename ρ) next = net.wiring e next := by
  obtain ⟨x, hx⟩ := he e.representative List.mem_cons_self
  have hrecipe : net'.recipe (e.rename ρ).representative = net.recipe e.representative :=
    recipe h hL hr hr' hx
  have hstride := stride? h hr.wellFormed hr'.wellFormed he
  simp only [Network.wiring, hrecipe, hstride]

/-- An ensemble becomes the code that its mirror image becomes. -/
theorem loweringEnsemble {e : Ensemble} (he : ∀ n ∈ e.neurons, ∃ x, net.neurons[n]? = some x)
    (input output : VarId) {b b' : Build} (hb : b.SameCode b') :
    EndsAlike ρ (fun q q' => q.1.SameCode q'.1 ∧ q'.2 = q.2)
      (net.loweringEnsemble e input output b)
      (net'.loweringEnsemble (e.rename ρ) input output b') := by
  obtain ⟨x, hx⟩ := he e.representative List.mem_cons_self
  have hw := hr.wellFormed
  have hw' := hr'.wellFormed
  have hgap : net'.gap? (e.rename ρ).representative = net.gap? e.representative :=
    gap? h hw hw' hx
  have hsources : net'.sourcesOf (e.rename ρ).representative = net.sourcesOf e.representative :=
    sourcesOf h hw hw' hx
  have hrecipe : net'.recipe (e.rename ρ).representative = net.recipe e.representative :=
    recipe h hL hr hr' hx
  have hlength := (literalTables h hL hr hr' he).length_eq
  have hbases := baseTables h hL hr hr' he
  have hwiring := wiring h hL hr hr' he
  have hstart : (e.rename ρ).start = e.start := rfl
  unfold Network.loweringEnsemble
  rw [hgap]
  cases net.gap? e.representative with
  | some p => exact .error _
  | none =>
    simp only [hsources, hrecipe, hwiring, hb.size, ← hlength, hstart, Emit.ensemble_rename]
    have hadded : (net'.literalTables (e.rename ρ) ++ net'.baseTables (e.rename ρ)).length =
        (net.literalTables e ++ net.baseTables e).length := by
      rw [List.length_append, List.length_append, hlength, hbases]
    exact .ok ((hb.append hadded).emit (Emit.emits_ensemble _ _ _ _ _).blind)

theorem loweringEnsembles {es : List Ensemble}
    (hes : ∀ e ∈ es, ∀ n ∈ e.neurons, ∃ x, net.neurons[n]? = some x) (input output : VarId)
    {b b' : Build} (hb : b.SameCode b') :
    EndsAlike ρ (fun q q' => q.1.SameCode q'.1 ∧ q'.2 = q.2)
      (net.loweringEnsembles input output es b)
      (net'.loweringEnsembles input output (es.map (Ensemble.rename ρ)) b') := by
  induction es generalizing b b' with
  | nil => exact .ok ⟨hb, rfl⟩
  | cons e es ih =>
    apply (loweringEnsemble h hL hr hr' (hes e List.mem_cons_self) input output hb).bind
    rintro q q' _ ⟨hhere, hstmt⟩
    apply (ih (fun e he => hes e (List.mem_cons_of_mem _ he)) hhere).bind
    rintro p p' _ ⟨hbelow, hstmts⟩
    exact .ok ⟨hbelow, by rw [hstmt, hstmts]⟩

theorem loweringLayers {ps qs : List (Layer × LayerId)} (hpq : List.Forall₂ (Facing ρ net) ps qs)
    (last : LayerId) (input : VarId) {b b' : Build} (hb : b.SameCode b') :
    EndsAlike ρ (fun q q' => q.1.SameCode q'.1 ∧ q'.2 = q.2)
      (net.loweringLayers last input ps b) (net'.loweringLayers last input qs b') := by
  induction hpq generalizing input b b' with
  | nil => exact .ok ⟨hb, rfl⟩
  | @cons p q ps qs hp _ ih =>
    have hns : ∀ n ∈ p.1.neurons, ∃ x, net.neurons[n]? = some x := by
      intro n hn
      obtain ⟨x, hx, _⟩ := hr.wellFormed.neuron_of_mem hp.there hn
      exact ⟨x, hx⟩
    have hty : q.1.vectorTy = p.1.vectorTy := by
      rw [Layer.vectorTy, Layer.vectorTy, hp.neurons, List.length_map]
    -- Where the layer writes to, and the build after its vector is declared.
    let start (c : Build) : VarId × Build := if p.2 = last then (Kernel.outputVar, c)
      else Emit.declare s!"layer{p.2}" p.1.vectorTy c
    obtain ⟨hsame, hout⟩ : (start b).2.SameCode (start b').2 ∧ (start b').1 = (start b).1 := by
      simp only [start]
      split
      · exact ⟨hb, rfl⟩
      · exact hb.emit fun _ => rfl
    rw [Network.loweringLayers, Network.loweringLayers, hp.number, hp.neurons, hty]
    apply (grouping h hL hr hr' p.2 p.1.neurons hns).bind
    rintro es _ hes rfl
    have hmembers : ∀ e ∈ es, ∀ n ∈ e.neurons, ∃ x, net.neurons[n]? = some x :=
      fun e he n hn => hns n ((hr.tiles hp.there hes).mem he hn)
    change EndsAlike ρ _ (net.loweringEnsembles input (start b).1 es (start b).2 >>= _)
      (net'.loweringEnsembles input (start b').1 _ (start b').2 >>= _)
    rw [hout]
    apply (loweringEnsembles h hL hr hr' hmembers input _ hsame).bind
    rintro here here' _ ⟨hhere, hstmts⟩
    apply (ih _ hhere).bind
    rintro below below' _ ⟨hbelow, hrest⟩
    exact .ok ⟨hbelow, by simp only [hstmts, hrest, start]⟩

end

theorem vectorTy (h : net.Mirrors L ρ net') (l : LayerId) :
    (net'.layers[l]?.getD {}).vectorTy = (net.layers[l]?.getD {}).vectorTy := by
  cases hl : net.layers[l]? with
  | none =>
    have hget := congrArg (·[l]?) h.layers
    simp only [List.getElem?_map, Array.getElem?_toList, hl, Option.map_none,
      Option.map_eq_none_iff] at hget
    rw [hget]
  | some layer =>
    obtain ⟨layer', hl', hns⟩ := h.layer hl
    simp only [hl', Option.getD_some, Layer.vectorTy, hns, List.length_map]

/-- Networks that mirror one another are lowered to the same code. -/
theorem lowering (h : net.Mirrors L ρ net') (hL : ∀ c d, L c d = true → c.sameKind d = true)
    (hw : net.WellFormed) (hw' : net'.WellFormed) (hb : net.Built) (hb' : net'.Built) :
    EndsAlike ρ (fun k k' => k'.vars = k.vars ∧ k'.arena = k.arena ∧ k'.body = k.body)
      net.lowering net'.lowering := by
  have hsize : net'.layers.size = net.layers.size := by simpa using congrArg List.length h.layers
  have hchecking := checking h hw hw' hL hb
  apply (EndsAlike.of_eq hchecking (checking_ne_defect hw hb)).bind
  intro _ _ hok _
  have hr : net.Ready := .of_checking hw hb hok
  have hr' : net'.Ready := .of_checking hw' hb' (hchecking.trans hok)
  simp only [Array.back?_eq_getElem?, hsize, h.vectorTy]
  apply (loweringLayers h hL hr hr' (loweredLayers h hw hw') _ _ ⟨rfl, rfl⟩).bind
  rintro q q' _ ⟨hbuild, hbody⟩
  rw [hbuild.eq]
  exact .ok ⟨rfl, rfl, hbody⟩

/-- Kernels of two networks that have the same code and tables for the same purposes. What differs
is the literals in the tables for literals. -/
structure Recast (L : Literal → Literal → Bool) (ρ : NeuronId → NeuronId) (net net' : Network)
    (k k' : Kernel) : Prop where
  vars : k'.vars = k.vars
  arena : k'.arena = k.arena
  body : k'.body = k.body
  tables : ∃ es, net.groupings net.loweredLayers = .ok es ∧ k.tables.toList = net.tables es ∧
    k'.tables.toList = net'.tables (es.map (Ensemble.rename ρ)) ∧ ∀ e ∈ es,
      List.Forall₂ (Table.EqualUpTo L) (net.literalTables e) (net'.literalTables (e.rename ρ)) ∧
      net'.baseTables (e.rename ρ) = net.baseTables e

theorem recast (h : net.Mirrors L ρ net') (hL : ∀ c d, L c d = true → c.sameKind d = true)
    (hw : net.WellFormed) (hw' : net'.WellFormed) (hb : net.Built) (hb' : net'.Built) :
    EndsAlike ρ (Recast L ρ net net') net.lowering net'.lowering := by
  apply (lowering h hL hw hw' hb hb').imp
  rintro k k' hk hk' ⟨hvars, harena, hbody⟩
  have hr : net.Ready := .of_lowering hw hb hk
  have hr' : net'.Ready := .of_lowering hw' hb' hk'
  obtain ⟨es, hes, htables⟩ := lowering_tables hk
  obtain ⟨es', hes', htables'⟩ := lowering_tables hk'
  have hgroups := groupings h hL hr hr' (loweredLayers h hw hw')
  rw [hes, hes'] at hgroups
  cases hgroups with
  | ok hsame =>
    subst hsame
    refine ⟨hvars, harena, hbody, es, hes, htables, htables', fun e he => ?_⟩
    have hmembers : ∀ n ∈ e.neurons, ∃ x, net.neurons[n]? = some x := fun n hn =>
      hr.neuron_of_groupings (fun q hq => getElem?_of_mem_loweredLayers hq) hes he hn
    exact ⟨literalTables h hL hr hr' hmembers, baseTables h hL hr hr' hmembers⟩

end Mirrors

theorem Mirrors.Recast.eq {ρ : NeuronId → NeuronId} {net net' : Network} {k k' : Kernel}
    (h : Recast (fun c d => c == d) ρ net net' k k') : k' = k := by
  obtain ⟨hvars, harena, hbody, es, _, htables, htables', hes⟩ := h
  have hsame : net'.tables (es.map (Ensemble.rename ρ)) = net.tables es := by
    rw [Network.tables, Network.tables, List.flatMap_map]
    apply List.flatMap_congr
    intro e he
    obtain ⟨hliterals, hbases⟩ := hes e he
    have heq := hliterals.imp fun t t' ht => ht.eq
    rw [List.forall₂_eq_eq_eq] at heq
    rw [heq, hbases]
  have heq : k'.tables = k.tables := by
    rw [← Array.toList_inj, htables', hsame, htables]
  cases k
  cases k'
  simp_all

end Network

end Synapse
