import Mathlib.Tactic
import Synapse.Proofs.Grouping

namespace Synapse

namespace Network

/-- A network with ensembles stored for a layer. -/
def store (net : Network) (l : LayerId) (es : List Ensemble) : Network :=
  { net with layers := net.layers.modify l fun x => { x with ensembles := some es } }

/-- A network becomes another by one operation: types are found, a part is added or changed, or what
grouping has found for a layer is stored. -/
inductive Becomes : Network → Network → Prop
  | learn {net : Network} {types : Types} (h : Coherent ∅ net.arena.nodes net.env types) :
    Becomes net (net.withTypes types)
  | addLayer (net : Network) : Becomes net net.addLayer.1
  | addNeuron {net net' : Network} {l : LayerId} {kind : NeuronKind} {id : NeuronId}
    (h : net.addNeuron l kind = .ok (net', id)) : Becomes net net'
  | connect {net net' : Network} {src sink : NeuronId} (h : net.connect src sink = .ok net') :
    Becomes net net'
  | setForward (net : Network) (n : NeuronId) (s : Sketch) : Becomes net (net.setForward n s).1
  | addProperty {net net' : Network} {n : NeuronId} {name : String} {value : Property} {i : Nat}
    (h : net.addProperty n name value = .ok (net', i)) : Becomes net net'
  | store {net : Network} {l : LayerId} {es : List Ensemble}
    (h : Pass.Answers net (Pass.collect l) (· = .ok es)) : Becomes net (net.store l es)

/-- A network develops into another by any number of operations. -/
abbrev Develops : Network → Network → Prop := Relation.ReflTransGen Becomes

theorem WellFormed.withTypes {net : Network} (hw : net.WellFormed) {types : Types}
    (hc : Coherent ∅ net.arena.nodes net.env types) : (net.withTypes types).WellFormed :=
  ⟨hw.ordered, hc, hw.placed, hw.listed, hw.sourced, fun l layer es hl hes =>
    (hw.grouped l layer es hl hes).imp fun _ _ _ _ h => h⟩

theorem samePlaces_store (net : Network) (l : LayerId) (es : List Ensemble) :
    net.SamePlaces (net.store l es) := by
  refine ⟨fun j => ?_, fun _ => rfl⟩
  rw [store, Array.getElem?_modify]
  split
  · simp [Option.map_map, Function.comp_def]
  · rfl

/-- What is stored afterwards was stored before, or has just been stored. -/
theorem stored_store {net : Network} {l j : LayerId} {es es' : List Ensemble} {layer : Layer}
    (h : (net.store l es).layers[j]? = some layer) (hes : layer.ensembles = some es') :
    net.layers[j]? = some layer ∨
      j = l ∧ es' = es ∧ ∃ x, net.layers[l]? = some x ∧ layer.neurons = x.neurons := by
  rw [store, Array.getElem?_modify] at h
  split at h
  · rename_i hlj
    obtain ⟨x, hx, rfl⟩ := Option.map_eq_some_iff.1 h
    exact .inr ⟨hlj.symm, (Option.some.inj hes).symm, x, hlj ▸ hx, rfl⟩
  · exact .inl h

/-- Ensembles that cover a layer may be stored for it. -/
theorem WellFormed.store {net : Network} (hw : net.WellFormed) {l : LayerId} {layer : Layer}
    {es : List Ensemble} (hl : net.layers[l]? = some layer)
    (htiles : net.Tiles l 0 es layer.neurons) : (net.store l es).WellFormed := by
  refine hw.of_samePlaces (net.samePlaces_store l es) hw.ordered hw.coherent hw.sourced ?_
  intro j layer' es' hj hes'
  rcases stored_store hj hes' with hj | ⟨rfl, rfl, x, hx, hns⟩
  · exact (hw.grouped j layer' es' hj hes').imp fun _ _ _ _ h => h
  · obtain rfl : layer = x := by simpa [hl] using hx
    rw [hns]
    exact htiles.imp fun _ _ _ _ h => h

end Network

theorem Session.on_self {s : Session} (hw : s.net.WellFormed) : s.On s.net :=
  ⟨s.net.arena.types, hw.coherent, rfl⟩

/-- A pass has only one outcome on a well-formed network. -/
theorem Pass.Answers.and {α : Type} {net : Network} (hw : net.WellFormed) {x : Pass α}
    {P Q : Except Failure α → Prop} (hp : Answers net x P) (hq : Answers net x Q) :
    Answers net x fun r => P r ∧ Q r := by
  obtain ⟨r, hr, hx⟩ := hp
  obtain ⟨q, hq, hx'⟩ := hq
  obtain ⟨s, _, hs⟩ := hx ⟨net, #[]⟩ (Session.on_self (s := ⟨net, #[]⟩) hw)
  obtain ⟨t, _, ht⟩ := hx' ⟨net, #[]⟩ (Session.on_self (s := ⟨net, #[]⟩) hw)
  have heq : r = q := by
    rw [hs] at ht
    cases r <;> cases q <;> simp_all [outcome]
  exact ⟨r, ⟨hr, heq ▸ hq⟩, hx⟩

namespace Network

theorem Becomes.wellFormed {net net' : Network} (h : net.Becomes net') (hw : net.WellFormed) :
    net'.WellFormed := by
  cases h with
  | learn h => exact hw.withTypes h
  | addLayer => exact hw.addLayer
  | addNeuron h => exact hw.addNeuron h
  | connect h => exact hw.connect h
  | setForward n s => exact hw.setForward n s
  | addProperty h => exact hw.addProperty h
  | store h =>
    obtain ⟨r, ⟨rfl, hgives⟩, _⟩ := h.and hw (Pass.Answers.collect hw _)
    obtain ⟨layer, hl, htiles⟩ := hgives _ rfl
    exact hw.store hl htiles

theorem Develops.wellFormed {net net' : Network} (h : net.Develops net') (hw : net.WellFormed) :
    net'.WellFormed := by
  induction h with
  | refl => exact hw
  | tail _ hstep ih => exact hstep.wellFormed ih

/-- What each operation keeps holds of every network that develops. -/
theorem Develops.invariant {P : Network → Prop}
    (hstep : ∀ net net' : Network, net.WellFormed → net.Becomes net' → P net → P net')
    {net net' : Network} (h : net.Develops net') (hw : net.WellFormed) (hp : P net) : P net' := by
  induction h with
  | refl => exact hp
  | tail hdev hstep' ih => exact hstep _ _ (Develops.wellFormed hdev hw) hstep' ih

end Network

/-- A node that an expression may have: the node of a term. -/
def Node.Plain (n : Node) : Prop := ∃ (t : Term) (place : Nat → NodeId), n = t.node place

theorem Sketch.length_nodes (s : Sketch) (base : NodeId) :
    (s.nodes s.order base).length = s.order.length := by
  apply List.filterMap_length_eq_length.2
  intro i hi
  obtain ⟨t, ht⟩ := s.line_of_mem_order hi
  rw [ht, Option.map_some, Option.isSome_some]

theorem Sketch.plain_of_mem_nodes {s : Sketch} {order : List Nat} {base : NodeId} {n : Node}
    (h : n ∈ s.nodes order base) : n.Plain := by
  obtain ⟨i, _, hi⟩ := List.mem_filterMap.1 h
  obtain ⟨t, _, rfl⟩ := Option.map_eq_some_iff.1 hi
  exact ⟨t, _, rfl⟩

theorem Arena.size_intern (a : Arena) (s : Sketch) :
    (a.intern s).1.nodes.size = a.nodes.size + s.order.length := by
  simp only [intern, Array.size_append, List.size_toArray, Sketch.length_nodes]

/-- The root of an expression is one of the nodes that were appended for it. -/
theorem Arena.intern_lt (a : Arena) (s : Sketch) : (a.intern s).2 < (a.intern s).1.nodes.size := by
  have hmem : s.above.length ∈ s.order := Dag.mem_postorder.2 (.refl _ _)
  have hlt := List.idxOf_lt_length_of_mem hmem
  rw [size_intern]
  exact Nat.add_lt_add_left hlt _

theorem Arena.Extends.size_le {nodes nodes' : Array Node} (h : Arena.Extends nodes nodes') :
    nodes.size ≤ nodes'.size := by
  by_contra hlt
  have hsize : nodes'.size < nodes.size := Nat.lt_of_not_le hlt
  have hget := h nodes'.size _ (Array.getElem?_eq_getElem hsize)
  have hbound : nodes'.size < nodes'.size := (Array.getElem?_eq_some_iff.1 hget).1
  omega

namespace Network

/-- What holds of the parts that a network was built from: its nodes are those of expressions, the
expression of a neuron is there, and an input neuron has no sources. -/
structure Built (net : Network) : Prop where
  plain : ∀ (id : NodeId) (n : Node), net.arena.nodes[id]? = some n → n.Plain
  rooted : ∀ (n : NeuronId) (x : Neuron), net.neurons[n]? = some x →
    ∀ root, x.forward = some root → root < net.arena.nodes.size
  inputs : ∀ (n : NeuronId) (x : Neuron), net.neurons[n]? = some x → x.isInput = true →
    x.sources = []

theorem built_empty : ({} : Network).Built := by
  constructor <;> intros <;> simp_all

theorem Built.intern {net : Network} (hb : net.Built) (s : Sketch) :
    ({ net with arena := (net.arena.intern s).1 } : Network).Built := by
  have hextends : Arena.Extends net.arena.nodes (net.arena.intern s).1.nodes := .append _ _
  refine ⟨?_, ?_, hb.inputs⟩
  · intro id n hn
    change (net.arena.nodes ++ _)[id]? = some n at hn
    by_cases hlt : id < net.arena.nodes.size
    · rw [Array.getElem?_append_left hlt] at hn
      exact hb.plain id n hn
    · rw [Array.getElem?_append_right (Nat.le_of_not_lt hlt), List.getElem?_toArray] at hn
      exact Sketch.plain_of_mem_nodes (List.mem_of_getElem? hn)
  · intro n x hx root hroot
    exact Nat.lt_of_lt_of_le (hb.rooted n x hx root hroot) hextends.size_le

theorem Built.connect {net net' : Network} {src sink : NeuronId} (hb : net.Built)
    (h : net.connect src sink = .ok net') : net'.Built := by
  obtain ⟨m, x, _, _, hx, hin, rfl⟩ := connect_eq_ok h
  have hold : ∀ (n : NeuronId) (y : Neuron),
      ((net.addEdge src sink).invalidate x.layer).neurons[n]? = some y →
      ∃ z, net.neurons[n]? = some z ∧ y.kind = z.kind ∧ y.forward = z.forward ∧
        (n ≠ sink → y.sources = z.sources) := by
    intro n y hy
    obtain ⟨u, hu, rfl⟩ := of_modify_some hy
    obtain ⟨z, hz, rfl⟩ := of_modify_some hu
    refine ⟨z, hz, ?_, ?_, ?_⟩
    · split <;> split <;> rfl
    · split <;> split <;> rfl
    · intro hne
      rw [if_neg hne.symm]
      split <;> rfl
  refine ⟨hb.plain, ?_, ?_⟩
  · intro n y hy root hroot
    obtain ⟨z, hz, _, hforward, _⟩ := hold n y hy
    exact hb.rooted n z hz root (hforward ▸ hroot)
  · intro n y hy hinput
    obtain ⟨z, hz, hkind, _, hsources⟩ := hold n y hy
    have hzin : z.isInput = true := by rwa [Neuron.isInput, ← hkind]
    by_cases hn : n = sink
    · rw [hn] at hz
      obtain rfl : x = z := by simpa [hx] using hz
      rw [hin] at hzin
      cases hzin
    · rw [hsources hn]
      exact hb.inputs n z hz hzin

theorem Built.withForward {net : Network} (hb : net.Built) (n : NeuronId) (x : Neuron)
    (s : Sketch) : (net.withForward n x s).Built := by
  have hintern := hb.intern s
  refine ⟨hintern.plain, ?_, ?_⟩
  · intro m y hy root hroot
    obtain ⟨z, hz, rfl⟩ := of_modify_some hy
    split at hroot
    · obtain rfl := Option.some.inj hroot
      exact net.arena.intern_lt s
    · exact hintern.rooted m z hz root hroot
  · intro m y hy hin
    obtain ⟨z, hz, rfl⟩ := of_modify_some hy
    have hsources := hb.inputs m z hz
    split
    · rename_i hm
      rw [if_pos hm] at hin
      exact hsources hin
    · rename_i hm
      rw [if_neg hm] at hin
      exact hsources hin

theorem Built.addProperty {net net' : Network} {n : NeuronId} {name : String} {value : Property}
    {i : Nat} (hb : net.Built) (h : net.addProperty n name value = .ok (net', i)) : net'.Built := by
  obtain rfl := addProperty_eq_ok h
  refine ⟨hb.plain, ?_, ?_⟩
  · intro m y hy root hroot
    obtain ⟨z, hz, rfl⟩ := of_modify_some hy
    apply hb.rooted m z hz root
    split at hroot <;> exact hroot
  · intro m y hy hin
    obtain ⟨z, hz, rfl⟩ := of_modify_some hy
    have hzin : z.isInput = true := by split at hin <;> exact hin
    have hsources := hb.inputs m z hz hzin
    split <;> exact hsources

theorem Becomes.built {net net' : Network} (h : net.Becomes net') (hb : net.Built) :
    net'.Built := by
  cases h with
  | learn h => exact ⟨hb.plain, hb.rooted, hb.inputs⟩
  | addLayer => exact ⟨hb.plain, hb.rooted, hb.inputs⟩
  | addNeuron h =>
    obtain ⟨layer, _, rfl⟩ := addNeuron_eq_ok h
    refine ⟨hb.plain, ?_, ?_⟩
    · intro n x hx root hroot
      rcases of_push_some hx with hx | ⟨_, rfl⟩
      · exact hb.rooted n x hx root hroot
      · cases hroot
    · intro n x hx hin
      rcases of_push_some hx with hx | ⟨_, rfl⟩
      · exact hb.inputs n x hx hin
      · rfl
  | connect h => exact hb.connect h
  | setForward n s =>
    rcases net.setForward_cases n s with h | ⟨x, _, h⟩
    · rw [h]
      exact hb.intern s
    · rw [h]
      exact hb.withForward n x s
  | addProperty h => exact hb.addProperty h
  | store h => exact ⟨hb.plain, hb.rooted, hb.inputs⟩

end Network

end Synapse
