import Mathlib.Tactic
import Synapse.Proofs.Sessions

namespace Synapse

namespace Network

/-- The kind of a neuron and its edges. -/
def links (x : Neuron) : NeuronKind × List NeuronId × List NeuronId := (x.kind, x.sources, x.sinks)

/-- Edges are recorded at both of their ends. They lead to neurons of the network, and none leaves
an output neuron. -/
structure Linked (net : Network) : Prop where
  balanced : ∀ (s t : NeuronId) (x y : Neuron), net.neurons[s]? = some x →
    net.neurons[t]? = some y → x.sinks.count t = y.sources.count s
  sinked : ∀ (n : NeuronId) (x : Neuron), net.neurons[n]? = some x →
    ∀ t ∈ x.sinks, ∃ y, net.neurons[t]? = some y
  outputs : ∀ (n : NeuronId) (x : Neuron), net.neurons[n]? = some x → x.isOutput = true →
    x.sinks = []

theorem linked_empty : ({} : Network).Linked := by
  constructor <;> intros <;> simp_all

/-- What leaves the edges of every neuron as they are keeps them recorded at both ends. -/
theorem Linked.of_links {net net' : Network} (h : net.Linked)
    (hlinks : ∀ n : NeuronId, net'.neurons[n]?.map links = net.neurons[n]?.map links) :
    net'.Linked := by
  have hold : ∀ (n : NeuronId) (y : Neuron), net'.neurons[n]? = some y →
      ∃ x, net.neurons[n]? = some x ∧ x.kind = y.kind ∧ x.sources = y.sources ∧
        x.sinks = y.sinks := by
    intro n y hy
    have hn := hlinks n
    rw [hy, Option.map_some] at hn
    obtain ⟨x, hx, he⟩ := Option.map_eq_some_iff.1 hn.symm
    simp only [links, Prod.mk.injEq] at he
    exact ⟨x, hx, he⟩
  refine ⟨?_, ?_, ?_⟩
  · intro s t x y hx hy
    obtain ⟨u, hu, _, _, hsinks⟩ := hold s x hx
    obtain ⟨v, hv, _, hsources, _⟩ := hold t y hy
    rw [← hsinks, ← hsources, h.balanced s t u v hu hv]
  · intro n x hx t ht
    obtain ⟨u, hu, _, _, hsinks⟩ := hold n x hx
    obtain ⟨v, hv⟩ := h.sinked n u hu t (hsinks ▸ ht)
    have hn := hlinks t
    rw [hv, Option.map_some] at hn
    obtain ⟨y, hy, _⟩ := Option.map_eq_some_iff.1 hn
    exact ⟨y, hy⟩
  · intro n x hx hout
    obtain ⟨u, hu, hkind, _, hsinks⟩ := hold n x hx
    rw [← hsinks]
    apply h.outputs n u hu
    rwa [Neuron.isOutput, hkind]

theorem count_of_unknown {net : Network} {ns : List NeuronId}
    (h : ∀ t ∈ ns, ∃ y, net.neurons[t]? = some y) : ns.count net.neurons.size = 0 := by
  apply List.count_eq_zero.2
  intro hm
  obtain ⟨y, hy⟩ := h _ hm
  have hlt : net.neurons.size < net.neurons.size := (Array.getElem?_eq_some_iff.1 hy).1
  omega

/-- A new neuron has no edges, and no edge names it yet. -/
theorem Linked.addNeuron {net net' : Network} {l : LayerId} {kind : NeuronKind} {id : NeuronId}
    (hw : net.WellFormed) (hl : net.Linked) (h : net.addNeuron l kind = .ok (net', id)) :
    net'.Linked := by
  obtain ⟨layer, _, rfl⟩ := addNeuron_eq_ok h
  refine ⟨?_, ?_, ?_⟩
  · intro s t x y hx hy
    rcases of_push_some hx with hx | ⟨rfl, rfl⟩
    · rcases of_push_some hy with hy | ⟨rfl, rfl⟩
      · exact hl.balanced s t x y hx hy
      · rw [count_of_unknown (hl.sinked s x hx), List.count_nil]
    · rcases of_push_some hy with hy | ⟨rfl, rfl⟩
      · rw [count_of_unknown (hw.sourced t y hy), List.count_nil]
      · rfl
  · intro n x hx t ht
    rcases of_push_some hx with hx | ⟨_, rfl⟩
    · obtain ⟨y, hy⟩ := hl.sinked n x hx t ht
      exact ⟨y, push_some hy _⟩
    · cases ht
  · intro n x hx hout
    rcases of_push_some hx with hx | ⟨_, rfl⟩
    · exact hl.outputs n x hx hout
    · rfl

/-- What an edge adds to each neuron. Its ends may be the same neuron. -/
theorem of_addEdge_some {net : Network} {src sink n : NeuronId} {y : Neuron}
    (h : (net.addEdge src sink).neurons[n]? = some y) :
    ∃ x, net.neurons[n]? = some x ∧ y.kind = x.kind ∧
      y.sinks = (if src = n then x.sinks ++ [sink] else x.sinks) ∧
      y.sources = (if sink = n then x.sources ++ [src] else x.sources) := by
  obtain ⟨u, hu, rfl⟩ := of_modify_some h
  obtain ⟨x, hx, rfl⟩ := of_modify_some hu
  refine ⟨x, hx, ?_, ?_, ?_⟩ <;> split_ifs <;> rfl

theorem addEdge_some {net : Network} {n : NeuronId} {x : Neuron} (h : net.neurons[n]? = some x)
    (src sink : NeuronId) : ∃ y, (net.addEdge src sink).neurons[n]? = some y :=
  ⟨_, modify_some (modify_some h)⟩

theorem Linked.connect {net net' : Network} {src sink : NeuronId} (hl : net.Linked)
    (h : net.connect src sink = .ok net') : net'.Linked := by
  obtain ⟨m, z, hm, hout, hz, _, rfl⟩ := connect_eq_ok h
  refine ⟨?_, ?_, ?_⟩
  · intro s t x y hx hy
    obtain ⟨u, hu, _, hsinks, _⟩ := of_addEdge_some hx
    obtain ⟨v, hv, _, _, hsources⟩ := of_addEdge_some hy
    have hcount := hl.balanced s t u v hu hv
    -- both counts grow by one exactly if `s` is the source of the edge and `t` its sink
    by_cases hs : src = s <;> by_cases ht : sink = t <;>
      simp [hsinks, hsources, hs, ht, hcount]
  · intro n x hx t ht
    obtain ⟨u, hu, _, hsinks, _⟩ := of_addEdge_some hx
    have hcases : t ∈ u.sinks ∨ t = sink := by
      rw [hsinks] at ht
      split at ht <;> simp_all
    rcases hcases with ht | rfl
    · obtain ⟨v, hv⟩ := hl.sinked n u hu t ht
      exact addEdge_some hv src sink
    · exact addEdge_some hz src t
  · intro n x hx hxout
    obtain ⟨u, hu, hkind, hsinks, _⟩ := of_addEdge_some hx
    have huout : u.isOutput = true := by rwa [Neuron.isOutput, ← hkind]
    have hne : src ≠ n := by
      intro he
      obtain rfl : m = u := by simpa [he, hu] using hm.symm
      rw [hout] at huout
      cases huout
    rw [hsinks, if_neg hne]
    exact hl.outputs n u hu huout

theorem Becomes.linked {net net' : Network} (h : net.Becomes net') (hw : net.WellFormed)
    (hl : net.Linked) : net'.Linked := by
  cases h with
  | learn h => exact hl.of_links fun _ => rfl
  | addLayer => exact hl.of_links fun _ => rfl
  | addNeuron h => exact hl.addNeuron hw h
  | connect h => exact hl.connect h
  | setForward n s =>
    rcases net.setForward_cases n s with h | ⟨x, _, h⟩
    · rw [h]
      exact hl.of_links fun _ => rfl
    · rw [h]
      exact hl.of_links (map_modify _ (by intro; rfl) n)
  | @addProperty _ n _ _ _ h =>
    obtain rfl := addProperty_eq_ok h
    exact hl.of_links (map_modify _ (by intro; rfl) n)
  | store h => exact hl.of_links fun _ => rfl

theorem neuronAt_eq_ok {net : Network} {l : LayerId} {p : Nat} {n : NeuronId} :
    net.neuronAt l p = .ok n ↔
      ∃ layer, net.layers[l]? = some layer ∧ layer.neurons[p]? = some n := by
  constructor
  · intro h
    obtain ⟨layer, hlayer, h⟩ := bind_eq_ok.1 h
    rw [orDefect_eq_ok, layer_eq_ok] at hlayer
    split at h
    · rename_i m hm
      obtain rfl : m = n := Except.ok.inj h
      exact ⟨layer, hlayer, hm⟩
    · cases h
  · intro h
    obtain ⟨layer, hlayer, hn⟩ := h
    refine bind_eq_ok.2 ⟨layer, orDefect_eq_ok.2 (layer_eq_ok.2 hlayer), ?_⟩
    rw [hn]
    rfl

/-- What a caller may rely on in the graph of a network. -/
structure Consistent (net : Network) : Prop where
  /-- A layer lists neurons of the network. -/
  known : ∀ (l : LayerId) (p : Nat) (n : NeuronId), net.neuronAt l p = .ok n →
    ∃ x, net.neurons[n]? = some x
  /-- A neuron stands at one place of one layer, the one it has noted. -/
  placed : ∀ (n : NeuronId) (x : Neuron), net.neurons[n]? = some x →
    ∀ (l : LayerId) (p : Nat), net.neuronAt l p = .ok n ↔ l = x.layer ∧ p = x.position
  /-- An edge is recorded equally often at its two ends. -/
  balanced : ∀ (s t : NeuronId) (x y : Neuron), net.neurons[s]? = some x →
    net.neurons[t]? = some y → x.sinks.count t = y.sources.count s
  /-- The ends of edges are neurons of the network. -/
  closed : ∀ (n : NeuronId) (x : Neuron), net.neurons[n]? = some x →
    ∀ t ∈ x.sources ++ x.sinks, ∃ y, net.neurons[t]? = some y
  outputs : ∀ (n : NeuronId) (x : Neuron), net.neurons[n]? = some x → x.kind = .output →
    x.sinks = []
  inputs : ∀ (n : NeuronId) (x : Neuron), net.neurons[n]? = some x → x.kind = .input →
    x.sources = []
  /-- The expression of a neuron is in the arena. -/
  rooted : ∀ (n : NeuronId) (x : Neuron), net.neurons[n]? = some x →
    ∀ root, x.forward = some root → root < net.arena.nodes.size
  /-- Operands come before their users. -/
  ordered : ∀ (id : NodeId) (node : Node), net.arena.nodes[id]? = some node →
    ∀ operand ∈ node.operands, operand < id

theorem WellFormed.neuronAt_iff {net : Network} (hw : net.WellFormed) {n : NeuronId} {x : Neuron}
    (hx : net.neurons[n]? = some x) (l : LayerId) (p : Nat) :
    net.neuronAt l p = .ok n ↔ l = x.layer ∧ p = x.position := by
  rw [neuronAt_eq_ok]
  constructor
  · intro h
    obtain ⟨layer, hl, hn⟩ := h
    obtain ⟨y, hy, hyl, hyp⟩ := hw.placed l layer p n hl hn
    obtain rfl : y = x := by simpa [hy] using hx
    exact ⟨hyl.symm, hyp.symm⟩
  · intro h
    obtain ⟨rfl, rfl⟩ := h
    exact hw.listed n x hx

end Network

theorem Session.Reachable.linked {s : Session} (h : s.Reachable) : s.net.Linked :=
  h.develops.invariant (fun _ _ hw hstep hl => hstep.linked hw hl) Network.wellFormed_empty
    Network.linked_empty

/-- Whatever was asked of a session, and whether it succeeded or failed, the graph of its network is
consistent. -/
theorem reachable_graph_consistent {s : Session} (hs : s.Reachable) : s.net.Consistent := by
  have hw := hs.wellFormed
  have hb := hs.built
  have hl := hs.linked
  refine ⟨?_, fun n x => hw.neuronAt_iff, hl.balanced, ?_, ?_, ?_, hb.rooted, hw.ordered⟩
  · intro l p n hn
    obtain ⟨layer, hlayer, hp⟩ := Network.neuronAt_eq_ok.1 hn
    obtain ⟨x, hx, _⟩ := hw.placed l layer p n hlayer hp
    exact ⟨x, hx⟩
  · intro n x hx t ht
    rcases List.mem_append.1 ht with ht | ht
    · exact hw.sourced n x hx t ht
    · exact hl.sinked n x hx t ht
  · intro n x hx hkind
    exact hl.outputs n x hx (by simp [Neuron.isOutput, hkind])
  · intro n x hx hkind
    exact hb.inputs n x hx (by simp [Neuron.isInput, hkind])

/-- Edges added twice and a neuron that feeds itself, among requests that are refused: edges from an
output and into an input, a connection between layers that ends at a position which is not there, an
expression for a neuron that is not there. -/
def tangled : Session := .ofRequests [.addLayer, .addNeuron 0 .input, .addLayer,
  .addNeuron 1 .hidden, .addNeuron 1 .output, .connect 0 1, .connect 0 1, .connect 1 1,
  .connect 2 1, .connect 1 0, .connect 1 2, .addNeuron 2 .hidden,
  .connectLayers 0 1 fun p => some [0, p],
  .setForward 7 { above := [.literal (.int 5), .input 1], last := .reduce .sum 1 },
  .setForward 1 { above := [.literal (.int 5), .input 1], last := .reduce .max 1 }]

theorem tangled_consistent : tangled.Reachable ∧
    tangled.net.neurons[0]?.map (·.sinks) = some [1, 1] ∧
    tangled.net.neurons[1]?.map (·.sources) = some [0, 0, 1] ∧
    tangled.net.neurons[1]?.map (·.sinks) = some [1, 2] ∧
    tangled.net.neurons[1]?.map (·.forward) = some (some 3) ∧ tangled.net.Consistent := by
  have hs : tangled.Reachable := Session.reachable_ofRequests _
  exact ⟨hs, by decide +kernel, by decide +kernel, by decide +kernel, by decide +kernel,
    reachable_graph_consistent hs⟩

end Synapse
