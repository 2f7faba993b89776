import Mathlib.Tactic
import Synapse.Network.Check
import Synapse.Proofs.Building
import Synapse.Proofs.Passes

namespace Synapse

namespace Pass.Answers

variable {net : Network}

theorem sameShape (hw : net.WellFormed) (v w : NodeId) :
    Answers net (Pass.sameShape v w) (Gives fun c => c = true → ∃ f, f v = w ∧
      Matches ∅ net.arena.nodes net.env ((Arena.dag net.arena.nodes).Reaches v) f) := by
  obtain ⟨r, hr, hsound, _⟩ := finds_sameShape ∅ net.env hw.ordered v w
  exact typing (fun _ => rfl) hr fun c hc ht => hsound (by rw [hc, ht])

theorem sourcePositions (x : Neuron) :
    Answers net (Pass.sourcePositions x) (Gives fun ps => ps = net.sourcePositions x) := by
  have hmap : ∀ s ∈ x.sources, Answers net (do return (← Pass.neuron s).position)
      (Gives fun p => net.positionOf s = p) := by
    intro s _
    refine (neuron s).bindGives fun y hy => pure ?_
    rintro p ⟨⟩
    simp only [Network.positionOf, hy]
  refine (mapM hmap).gives fun ps hps => ?_
  have h := List.forall₂_map_left_iff.2 (hps ps rfl)
  exact (List.forall₂_eq_eq_eq ▸ h : _ = _).symm

/-- Neurons that can be merged are congruent. -/
theorem mergeable (hw : net.WellFormed) (a b : NeuronId) :
    Answers net (Pass.mergeable a b) (Gives fun c => c = true → net.Congruent a b) := by
  unfold Pass.mergeable
  refine (neuron a).bindGives fun x hx => (neuron b).bindGives fun y hy => ?_
  split
  · rename_i v w hv hw'
    refine (sameShape hw v w).bindGives fun same hsame => ?_
    split
    · rename_i hs
      split
      · rename_i hlen
        refine (sourcePositions x).bindGives fun p hp => ?_
        refine (sourcePositions y).bindGives fun q hq => ?_
        subst hp hq
        refine pure ?_
        rintro c ⟨⟩ hc
        exact ⟨x, y, v, w, hx, hy, hv, hw', hlen, by simpa using hc, fun _ _ => hsame hs⟩
      · exact throw (by rintro c ⟨⟩)
    · exact pure (by rintro c ⟨⟩ ⟨⟩)
  · exact pure (by rintro c ⟨⟩ ⟨⟩)

/-- The runs found continue the run that is open. -/
theorem runs (hw : net.WellFormed) (rest : List NeuronId) (current : Ensemble)
    (hc : ∀ n ∈ current.others, net.Congruent n current.representative) :
    Answers net (Pass.runs current rest)
      (Gives fun es => net.Tiles current.layer current.start es (current.neurons ++ rest)) := by
  induction rest generalizing current with
  | nil =>
    refine pure ?_
    rintro es ⟨⟩
    exact .cons rfl hc (.nil _)
  | cons n rest ih =>
    unfold Pass.runs
    refine (mergeable hw n current.representative).bindGives fun c hm => ?_
    split
    · rename_i ht
      refine (ih { current with others := current.others ++ [n] } ?_).gives fun es hes => ?_
      · intro m hmem
        rcases List.mem_append.1 hmem with hmem | hmem
        · exact hc m hmem
        · rw [List.mem_singleton.1 hmem]
          exact hm ht
      · simpa [Ensemble.neurons] using hes es rfl
    · refine (ih _ (by simp)).bindGives fun es hes => pure ?_
      rintro es' ⟨⟩
      exact .cons rfl hc (by simpa [Ensemble.neurons] using hes)

theorem split (hw : net.WellFormed) (l : LayerId) (ns : List NeuronId) :
    Answers net (Pass.split l ns) (Gives fun es => net.Tiles l 0 es ns) := by
  cases ns with
  | nil =>
    refine pure ?_
    rintro es ⟨⟩
    exact .nil 0
  | cons n rest => exact runs hw rest _ (by simp)

theorem collect (hw : net.WellFormed) (l : LayerId) :
    Answers net (Pass.collect l) (Gives fun es => ∃ layer, net.layers[l]? = some layer ∧
      net.Tiles l 0 es layer.neurons) := by
  refine (layer l).bindGives fun x hx => (split hw l x.neurons).bindGives fun es hes => ?_
  refine (forM fun e _ => report _ fun _ _ => trivial).bindGives fun _ _ => pure ?_
  rintro es' ⟨⟩
  exact ⟨x, hx, hes⟩

/-- The ensembles of a layer cover it, whether they were stored or are found afresh. -/
theorem ensembles (hw : net.WellFormed) (l : LayerId) :
    Answers net (Pass.ensembles l) (Gives fun es => ∃ layer, net.layers[l]? = some layer ∧
      net.Tiles l 0 es layer.neurons) := by
  refine (layer l).bindGives fun x hx => ?_
  split
  · rename_i es hes
    refine pure ?_
    rintro es' ⟨⟩
    exact ⟨x, hx, hw.grouped l x es hx hes⟩
  · exact collect hw l

end Pass.Answers

end Synapse
