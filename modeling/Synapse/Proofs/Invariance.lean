import Mathlib.Tactic
import Synapse.Proofs.Freshness

namespace Synapse

/-- In a session lowering comes to what the rules say. -/
theorem Session.Reachable.lower_result {s : Session} (hs : s.Reachable) :
    Pass.lower.result s = s.net.lowering := by
  have hlower := Pass.Answers.lowering hs.wellFormed hs.built fun hr q hq =>
    hr.ensembles (hs.upToDate hr) (getElem?_of_mem_loweredLayers hq)
  exact hlower.result hs.wellFormed

section

variable {L : Literal → Literal → Bool} {ρ : NeuronId → NeuronId}

/-- Sessions on networks that mirror one another. -/
theorem Session.Reachable.recast {s s' : Session} (hs : s.Reachable) (hs' : s'.Reachable)
    (h : s.net.Mirrors L ρ s'.net) (hL : ∀ c d, L c d = true → c.sameKind d = true) :
    EndsAlike ρ (Network.Mirrors.Recast L ρ s.net s'.net) (Pass.lower.result s)
      (Pass.lower.result s') := by
  rw [hs.lower_result, hs'.lower_result]
  exact h.recast hL hs.wellFormed hs'.wellFormed hs.built hs'.built

end

theorem Ensemble.rename_id : Ensemble.rename id = id := by
  funext e
  rw [rename, List.map_id]
  rfl

theorem Literal.sameKind_self (c : Literal) : c.sameKind c = true :=
  sameKind_of_beq (beq_self_eq_true c)

theorem Table.EqualUpTo.refl (t : Table) : t.EqualUpTo Literal.sameKind t :=
  ⟨rfl, rfl, List.forall₂_same.2 fun c _ => c.sameKind_self⟩

/-- Kernels of two networks that differ in the values of the literals that stand in tables, and in
nothing else. Tables for first sources are equal. -/
structure SameButLiterals (net net' : Network) (k k' : Kernel) : Prop where
  vars : k'.vars = k.vars
  arena : k'.arena = k.arena
  body : k'.body = k.body
  tables : List.Forall₂ (Table.EqualUpTo Literal.sameKind) k.tables.toList k'.tables.toList
  bases : ∃ es, net.groupings net.loweredLayers = .ok es ∧
    k.tables.toList = (es.flatMap fun e => net.literalTables e ++ net.baseTables e) ∧
    k'.tables.toList = (es.flatMap fun e => net'.literalTables e ++ net'.baseTables e) ∧
    ∀ e ∈ es, (net'.literalTables e).length = (net.literalTables e).length ∧
      net'.baseTables e = net.baseTables e

/-- Whether a map of nodes copies an expression. -/
def copiedBy (L : Literal → Literal → Bool) (ρ : NeuronId → NeuronId) (φ : NodeId → NodeId)
    (nodes nodes' : Array Node) (root : NodeId) : Bool :=
  let reached := (Arena.dag nodes).preorder root
  decide (reached.map φ).Nodup && reached.all fun (id : NodeId) =>
    match nodes[id]?, nodes'[φ id]? with
    | some m, some n => (m.rename ρ φ).equalUpTo L n
    | _, _ => false

/-- Whether maps of neurons and nodes show that one network mirrors another. -/
def Network.mirroredBy (net : Network) (L : Literal → Literal → Bool) (ρ : NeuronId → NeuronId)
    (φ : NodeId → NodeId) (net' : Network) : Bool :=
  net'.layers.toList.map Layer.neurons == (net.layers.toList.map fun x => x.neurons.map ρ) &&
    net.neurons.toList.zipIdx.all fun q =>
      net'.neurons[ρ q.2]?.any fun y =>
        y.kind == q.1.kind && y.sources == q.1.sources.map ρ && y.forward == q.1.forward.map φ &&
          q.1.forward.all (copiedBy L ρ φ net.arena.nodes net'.arena.nodes)

section

variable {L : Literal → Literal → Bool} {ρ : NeuronId → NeuronId} {φ : NodeId → NodeId}

theorem copies_of_copiedBy {nodes nodes' : Array Node} {root : NodeId}
    (h : copiedBy L ρ φ nodes nodes' root = true) : Copies L ρ nodes nodes' root φ := by
  obtain ⟨hnodup, hall⟩ := Bool.and_eq_true_iff.1 h
  constructor
  · intro x y hx hy
    exact List.inj_on_of_nodup_map (of_decide_eq_true hnodup) (Dag.mem_preorder.2 hx)
      (Dag.mem_preorder.2 hy)
  · intro x hx
    have hcopied := List.all_eq_true.1 hall x (Dag.mem_preorder.2 hx)
    split at hcopied
    · exact ⟨_, _, ‹_›, ‹_›, hcopied⟩
    · cases hcopied

theorem mirrors_of_mirroredBy {net net' : Network} (hρ : Function.Injective ρ)
    (h : net.mirroredBy L ρ φ net' = true) : net.Mirrors L ρ net' := by
  obtain ⟨hlayers, hall⟩ := Bool.and_eq_true_iff.1 h
  refine ⟨hρ, beq_iff_eq.1 hlayers, fun n x hx => ?_⟩
  have hmem : (x, n) ∈ net.neurons.toList.zipIdx := by
    simpa [List.mk_mem_zipIdx_iff_getElem?] using hx
  obtain ⟨y, hy, himage⟩ := (Option.any_eq_true _ _).1 (List.all_eq_true.1 hall (x, n) hmem)
  simp only [Bool.and_eq_true, beq_iff_eq] at himage
  obtain ⟨⟨⟨hkind, hsources⟩, hforward⟩, hcopied⟩ := himage
  refine ⟨y, hy, hkind, hsources, ?_⟩
  rw [hforward]
  cases hv : x.forward with
  | none => exact .none
  | some v =>
    rw [hv, Option.all_some] at hcopied
    exact .some ⟨φ, rfl, copies_of_copiedBy hcopied⟩

end

/-- Literals never reach code: networks that differ in the values of literals only stop at the same
error, or both at a defect, or become kernels that differ in the values of the literals in their
tables only. -/
theorem literals_stay_in_tables {s s' : Session} (hs : s.Reachable) (hs' : s'.Reachable)
    (h : s.net.Mirrors Literal.sameKind id s'.net) :
    EndsAlike id (SameButLiterals s.net s'.net) (Pass.lower.result s) (Pass.lower.result s') := by
  apply (hs.recast hs' h fun _ _ hcd => hcd).imp
  rintro k k' _ _ ⟨hvars, harena, hbody, es, hes, htables, htables', hboth⟩
  simp only [Ensemble.rename_id, List.map_id, id] at htables' hboth
  refine ⟨hvars, harena, hbody, ?_, es, hes, htables, htables', fun e he => ?_⟩
  · rw [htables, htables']
    apply forall₂_flatMap
    intro e he
    obtain ⟨hliterals, hbases⟩ := hboth e he
    rw [hbases]
    exact List.rel_append hliterals (List.forall₂_same.2 fun t _ => .refl t)
  · obtain ⟨hliterals, hbases⟩ := hboth e he
    exact ⟨hliterals.length_eq.symm, hbases⟩

/-- Two neurons that each weigh both inputs and add a constant to the sum. -/
def biased (v w : Literal) (b c : Literal) : Session := .ofRequests [
  .addLayer, .addNeuron 0 .input, .addNeuron 0 .input, .addLayer, .addNeuron 1 .output,
  .addNeuron 1 .output, .connectLayers 0 1 fun _ => some [1, 0],
  .setForward 2 { above := [.literal v, .input 2, .binary .mul 0 1, .reduce .sum 2, .literal b],
                  last := .binary .add 3 4 },
  .setForward 3 { above := [.literal w, .input 3, .binary .mul 0 1, .reduce .sum 2, .literal c],
                  last := .binary .add 3 4 }]

/-- The weights and constants of a network change its tables and nothing else. -/
theorem biased_literals_stay_in_tables :
    let s := biased (.vec [⟨2⟩, ⟨3⟩]) (.vec [⟨5⟩, ⟨7⟩]) (.int 1) (.int (-1))
    let s' := biased (.vec [⟨7⟩, ⟨5⟩]) (.vec [⟨3⟩, ⟨2⟩]) (.int 4) (.int 0)
    s.Reachable ∧ s'.Reachable ∧ s.net.Mirrors Literal.sameKind id s'.net ∧
      ∃ k k', Pass.lower.result s = .ok k ∧ Pass.lower.result s' = .ok k' ∧
        SameButLiterals s.net s'.net k k' ∧ k.tables ≠ k'.tables := by
  intro s s'
  have hs : s.Reachable := Session.reachable_ofRequests _
  have hs' : s'.Reachable := Session.reachable_ofRequests _
  have hmirrors : s.net.Mirrors Literal.sameKind id s'.net :=
    mirrors_of_mirroredBy (φ := id) Function.injective_id (by decide +kernel)
  have hok : (Pass.lower.result s).isOk = true := by decide +kernel
  have hne : (Pass.lower.result s).toOption.map Kernel.tables ≠
      (Pass.lower.result s').toOption.map Kernel.tables := by decide +kernel
  have hends := literals_stay_in_tables hs hs' hmirrors
  generalize Pass.lower.result s = r at hok hne hends ⊢
  generalize Pass.lower.result s' = r' at hne hends ⊢
  cases hends with
  | ok h =>
    exact ⟨hs, hs', hmirrors, _, _, rfl, rfl, h, fun heq => hne (congrArg some heq)⟩
  | error e => cases hok
  | defect d => cases hok

/-- Kernels do not depend on the order in which a network was built: networks that differ in the
numbers of neurons and nodes only, and in what kernels have no use for, stop at the same error, or
both at a defect, or become the same kernel. -/
theorem lowering_ignores_construction_order {s s' : Session} (hs : s.Reachable)
    (hs' : s'.Reachable) {ρ : NeuronId → NeuronId}
    (h : s.net.Mirrors (fun c d => c == d) ρ s'.net) :
    EndsAlike ρ (fun k k' => k' = k) (Pass.lower.result s) (Pass.lower.result s') := by
  apply (hs.recast hs' h fun _ _ => Literal.sameKind_of_beq).imp
  intro k k' _ _ hk
  exact hk.eq

/-- A pyramid built from its tip. The expression of one neuron was set twice, that of another has a
line that nothing names, and there is a property. -/
def inverted : Session := .ofRequests [.addLayer, .addLayer, .addLayer, .addNeuron 2 .output,
  .addNeuron 1 .hidden, .addNeuron 0 .input, .addNeuron 1 .hidden, .addNeuron 0 .input,
  .connect 1 0, .setForward 0 { above := [.input 0], last := .reduce .sum 0 },
  .setForward 1 { above := [.input 1], last := .reduce .max 0 }, .connect 2 1, .connect 2 3,
  .setForward 3 { above := [.input 3, .literal (.vec [⟨5⟩, ⟨7⟩]), .binary .mul 1 0],
                  last := .reduce .sum 2 },
  .connect 3 0, .connect 4 3, .addProperty 1 "bias" (.scalar ⟨3⟩), .connect 4 1,
  .setForward 4 { above := [.literal (.bool true)], last := .input 4 },
  .setForward 1 { above := [.input 1, .literal (.vec [⟨2⟩, ⟨3⟩]), .binary .mul 1 0],
                  last := .reduce .sum 2 },
  .setForward 2 { above := [], last := .input 2 }]

/-- Where the neurons of a pyramid are found when it is built from its tip. -/
def invert (n : NeuronId) : NeuronId := [2, 4, 1, 3, 0].getD n n

theorem invert_injective : Function.Injective invert := by
  have hback : Function.LeftInverse (fun m => [4, 2, 0, 3, 1].getD m m) invert := by
    intro n
    rcases n with _ | _ | _ | _ | _ | n <;> rfl
  exact hback.injective

theorem inverted_pyramid_same_kernel : pyramid.Reachable ∧ inverted.Reachable ∧
    pyramid.net.Mirrors (fun c d => c == d) invert inverted.net ∧
    ∃ k, Pass.lower.result pyramid = .ok k ∧ Pass.lower.result inverted = .ok k := by
  have hs : pyramid.Reachable := Session.reachable_ofRequests _
  have hs' : inverted.Reachable := Session.reachable_ofRequests _
  have hmirrors : pyramid.net.Mirrors (fun c d => c == d) invert inverted.net :=
    mirrors_of_mirroredBy (φ := fun id => [13, 8, 9, 10, 11, 12, 4, 5, 6, 7, 0, 1].getD id id)
      invert_injective (by decide +kernel)
  have hok : (Pass.lower.result pyramid).isOk = true := by decide +kernel
  have hends := lowering_ignores_construction_order hs hs' hmirrors
  generalize Pass.lower.result pyramid = r at hok hends ⊢
  generalize Pass.lower.result inverted = r' at hends ⊢
  cases hends with
  | ok h => exact ⟨hs, hs', hmirrors, _, rfl, by rw [h]⟩
  | error e => cases hok
  | defect d => cases hok

end Synapse
