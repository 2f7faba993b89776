import Mathlib.Tactic
import Synapse.Proofs.Mirrors
import Synapse.Proofs.Totality

namespace Synapse

/-- The same network up to the groupings that are stored and the types that are remembered. -/
structure Network.Regroups (net net' : Network) : Prop where
  layers : net'.layers.toList.map Layer.neurons = net.layers.toList.map Layer.neurons
  neurons : net'.neurons = net.neurons
  nodes : net'.arena.nodes = net.arena.nodes

namespace Network.Regroups

variable {net net' net'' : Network}

theorem refl (net : Network) : net.Regroups net := ⟨rfl, rfl, rfl⟩

theorem trans (h : net.Regroups net') (h' : net'.Regroups net'') : net.Regroups net'' :=
  ⟨h'.layers.trans h.layers, h'.neurons.trans h.neurons, h'.nodes.trans h.nodes⟩

theorem symm (h : net.Regroups net') : net'.Regroups net :=
  ⟨h.layers.symm, h.neurons.symm, h.nodes.symm⟩

theorem withTypes (net : Network) (types : Types) : net.Regroups (net.withTypes types) :=
  ⟨rfl, rfl, rfl⟩

theorem neuron (h : net.Regroups net') (n : NeuronId) : net'.neuron n = net.neuron n := by
  rw [Network.neuron, Network.neuron, h.neurons]

theorem env (h : net.Regroups net') : net'.env = net.env := by
  simp only [Network.env, h.neuron]

theorem layer (h : net.Regroups net') (l : LayerId) :
    net'.layers[l]?.map Layer.neurons = net.layers[l]?.map Layer.neurons := by
  have hget := congrArg (·[l]?) h.layers
  simpa using hget

theorem size (h : net.Regroups net') : net'.layers.size = net.layers.size := by
  simpa using congrArg List.length h.layers

theorem forward? (h : net.Regroups net') (n : NeuronId) : net'.forward? n = net.forward? n := by
  rw [Network.forward?, Network.forward?, h.neurons]

theorem checked (h : net.Regroups net') (hc : net.Checked) : net'.Checked := by
  intro n root hroot
  rw [h.nodes, h.env]
  exact hc n root ((h.forward? n).symm.trans hroot)

theorem retains (h : net.Regroups net') {ns : List NeuronId}
    (hns : ∀ n ∈ ns, ∃ x, net.neurons[n]? = some x) : net.Retains net' ns := by
  have hpositions : net'.positionOf = net.positionOf := by
    funext n
    rw [Network.positionOf, Network.positionOf, h.neurons]
  refine ⟨fun id n hn => h.nodes ▸ hn, fun n hn => ?_, fun n hn => ?_⟩
  · obtain ⟨x, hx⟩ := hns n hn
    exact ⟨x, x, hx, h.neurons ▸ hx, rfl, rfl⟩
  · rw [Network.sourcesOf, Network.sourcesOf, h.neurons]
    cases net.neurons[n]? with
    | none => rfl
    | some x => exact congrArg x.sources.map hpositions

theorem mirrors (h : net.Regroups net') (hb : net.Built) :
    net.Mirrors (fun c d => c == d) id net' := by
  refine ⟨Function.injective_id, by simpa using h.layers, fun n x hx => ?_⟩
  refine ⟨x, h.neurons ▸ hx, rfl, (List.map_id _).symm, ?_⟩
  cases hroot : x.forward with
  | none => exact .none
  | some root =>
    refine .some ⟨id, rfl, fun _ _ _ _ hvw => hvw, fun v hv => ?_⟩
    have hlt : v < net.arena.nodes.size := hv.le.trans_lt (hb.rooted n x hx root hroot)
    have hget := Array.getElem?_eq_getElem hlt
    refine ⟨_, _, hget, by rw [h.nodes, id, hget], ?_⟩
    cases net.arena.nodes[v] <;> simp [Node.rename, Node.equalUpTo]

theorem lowering (h : net.Regroups net') (hr : net.Ready) (hr' : net'.Ready) :
    net'.lowering = net.lowering := by
  have hboth := (h.mirrors hr.built).recast (fun _ _ => Literal.sameKind_of_beq) hr.wellFormed
    hr'.wellFormed hr.built hr'.built
  have heq := hboth.imp fun k k' _ _ hk => hk.eq.symm
  exact heq.eq.symm

end Network.Regroups

end Synapse
