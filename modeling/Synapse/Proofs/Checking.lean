import Mathlib.Tactic
import Synapse.Proofs.Edges
import Synapse.Proofs.Outcomes

namespace Synapse

namespace Network

variable {net : Network}

/-- What inference comes to at a node of a network: its type or, if operands are looked at from left
to right, the first error. -/
inductive Infers (net : Network) : NodeId → Except TypeError Ty → Prop
  | literal {id : NodeId} {c : Literal} (hid : net.arena.nodes[id]? = some (.literal c)) :
    Infers net id (.ok c.ty)
  | input {id : NodeId} {n : NeuronId} {x : Neuron} (hid : net.arena.nodes[id]? = some (.input n))
    (hx : net.neurons[n]? = some x) : Infers net id (.ok x.inputTy)
  | unary {id x : NodeId} {op : Unary} {r : Except TypeError Ty}
    (hid : net.arena.nodes[id]? = some (.unary op x)) (hx : Infers net x r) : Infers net id r
  | left {id x y : NodeId} {op : Binary} {e : TypeError}
    (hid : net.arena.nodes[id]? = some (.binary op x y)) (hx : Infers net x (.error e)) :
    Infers net id (.error e)
  | right {id x y : NodeId} {op : Binary} {t : Ty} {e : TypeError}
    (hid : net.arena.nodes[id]? = some (.binary op x y)) (hx : Infers net x (.ok t))
    (hy : Infers net y (.error e)) : Infers net id (.error e)
  | join {id x y : NodeId} {op : Binary} {t u v : Ty}
    (hid : net.arena.nodes[id]? = some (.binary op x y)) (hx : Infers net x (.ok t))
    (hy : Infers net y (.ok u)) (hjoin : t.join u = some v) : Infers net id (.ok v)
  | clash {id x y : NodeId} {op : Binary} {t u : Ty}
    (hid : net.arena.nodes[id]? = some (.binary op x y)) (hx : Infers net x (.ok t))
    (hy : Infers net y (.ok u)) (hjoin : t.join u = none) :
    Infers net id (.error (.incompatibleOperands t u))
  | reduced {id x : NodeId} {kind : Reduction} {e : TypeError}
    (hid : net.arena.nodes[id]? = some (.reduce kind x)) (hx : Infers net x (.error e)) :
    Infers net id (.error e)
  | reduce {id x : NodeId} {kind : Reduction} {s : Scalar} {len : Option Nat}
    (hid : net.arena.nodes[id]? = some (.reduce kind x)) (hx : Infers net x (.ok (.vector s len)))
    (hlen : len ≠ some 0) : Infers net id (.ok (.scalar s))
  | empty {id x : NodeId} {kind : Reduction} {s : Scalar}
    (hid : net.arena.nodes[id]? = some (.reduce kind x))
    (hx : Infers net x (.ok (.vector s (some 0)))) : Infers net id (.error .emptyReduction)
  | single {id x : NodeId} {kind : Reduction} {s : Scalar}
    (hid : net.arena.nodes[id]? = some (.reduce kind x)) (hx : Infers net x (.ok (.scalar s))) :
    Infers net id (.error (.reductionOfScalar (.scalar s)))
  | activated {id x : NodeId} {name : String} {e : TypeError}
    (hid : net.arena.nodes[id]? = some (.activate name x)) (hx : Infers net x (.error e)) :
    Infers net id (.error e)
  | activate {id x : NodeId} {name : String} {s : Scalar}
    (hid : net.arena.nodes[id]? = some (.activate name x)) (hx : Infers net x (.ok (.scalar s))) :
    Infers net id (.ok (.scalar s))
  | vector {id x : NodeId} {name : String} {s : Scalar} {len : Option Nat}
    (hid : net.arena.nodes[id]? = some (.activate name x))
    (hx : Infers net x (.ok (.vector s len))) :
    Infers net id (.error (.activationOfVector name (.vector s len)))

/-- The neuron `n` stands at a place and is computed by the expression `root`. -/
def Forward (net : Network) (l : LayerId) (p : Nat) (n : NeuronId) (root : NodeId) : Prop :=
  net.neuronAt l p = .ok n ∧ net.forward? n = some root

/-- What the check demands of the expression of a neuron. -/
structure Accepts (net : Network) (n : NeuronId) (root : NodeId) : Prop where
  own : ReadsOwn net.arena.nodes n root
  scalar : ∃ s, net.Infers root (.ok (.scalar s))

/-- What the check reports of a neuron at a place, if anything is wrong with its expression. -/
inductive Rejects (net : Network) (l : LayerId) (p : Nat) (n : NeuronId) (root : NodeId) :
    TypeError → Prop
  | foreign {x : NodeId} {m : NeuronId} (hx : (Arena.dag net.arena.nodes).Reaches root x)
    (hm : net.arena.nodes[x]? = some (.input m)) (hne : m ≠ n) :
    Rejects net l p n root (.foreignInput l p)
  | illTyped {e : TypeError} (hown : ReadsOwn net.arena.nodes n root)
    (hroot : net.Infers root (.error e)) : Rejects net l p n root e
  | notScalar {s : Scalar} {len : Option Nat} (hown : ReadsOwn net.arena.nodes n root)
    (hroot : net.Infers root (.ok (.vector s len))) :
    Rejects net l p n root (.outputNotScalar l p (.vector s len))

end Network

theorem orTypeError_eq_error {α : Type} {r : Except TypeError α} {f : Failure} :
    (orTypeError r : Except Failure α) = .error f ↔ ∃ e, r = .error e ∧ f = .error (.type e) := by
  cases r <;> simp [orTypeError, throw, throwThe, MonadExceptOf.throw, pure, Except.pure, eq_comm]

theorem orTypeError_injective {α : Type} {r r' : Except TypeError α}
    (h : (orTypeError r : Except Failure α) = orTypeError r') : r = r' := by
  cases r' with
  | ok a => exact orTypeError_eq_ok.1 h
  | error e =>
    obtain ⟨e', hr, he⟩ := orTypeError_eq_error.1 h
    simp_all

/-- The rules of inference say what inference without memory comes to. -/
theorem Network.Infers.typeOf_eq {net : Network} (ho : Arena.Ordered net.arena.nodes) {id : NodeId}
    {r : Except TypeError Ty} (h : net.Infers id r) :
    typeOf net.arena.nodes net.env id = orTypeError r := by
  induction h with
  | literal hid => rw [typeOf_node ho hid]; rfl
  | input hid hx => rw [typeOf_input ho hid hx]; rfl
  | unary hid _ ih => rw [typeOf_node ho hid, Node.typeBy, ih]
  | left hid _ ih => rw [typeOf_node ho hid, Node.typeBy, ih]; rfl
  | right hid _ _ ihx ihy => rw [typeOf_node ho hid, Node.typeBy, ihx, ihy]; rfl
  | join hid _ _ hjoin ihx ihy =>
    rw [typeOf_node ho hid, Node.typeBy, ihx, ihy]
    exact congrArg orTypeError (by rw [Rule.join, hjoin])
  | clash hid _ _ hjoin ihx ihy =>
    rw [typeOf_node ho hid, Node.typeBy, ihx, ihy]
    exact congrArg orTypeError (by rw [Rule.join, hjoin])
  | reduced hid _ ih => rw [typeOf_node ho hid, Node.typeBy, ih]; rfl
  | @reduce _ _ _ s len hid _ hlen ih =>
    rw [typeOf_node ho hid, Node.typeBy, ih]
    exact congrArg orTypeError (by rcases len with _ | _ | len <;> simp_all [Rule.reduce])
  | empty hid _ ih => rw [typeOf_node ho hid, Node.typeBy, ih]; rfl
  | single hid _ ih => rw [typeOf_node ho hid, Node.typeBy, ih]; rfl
  | activated hid _ ih => rw [typeOf_node ho hid, Node.typeBy, ih]; rfl
  | activate hid _ ih => rw [typeOf_node ho hid, Node.typeBy, ih]; rfl
  | vector hid _ ih => rw [typeOf_node ho hid, Node.typeBy, ih]; rfl

/-- A sequence ends in a type error if its first part does, or else if its second part does. -/
theorem bind_eq_orTypeError {α β : Type} {x : Except Failure α} {f : α → Except Failure β}
    {r : Except TypeError β} (h : (x >>= f) = orTypeError r) :
    (∃ e, x = orTypeError (.error e) ∧ r = .error e) ∨ ∃ a, x = .ok a ∧ f a = orTypeError r := by
  cases x with
  | ok a => exact .inr ⟨a, rfl, h⟩
  | error f =>
    obtain ⟨e, hr, he⟩ := orTypeError_eq_error.1 h.symm
    exact .inl ⟨e, congrArg Except.error he, hr⟩

/-- Inference without memory comes to what the rules say, unless it meets a defect. -/
theorem Network.infers_of_typeOf {net : Network} (ho : Arena.Ordered net.arena.nodes)
    (hb : net.Built) {id : NodeId} {r : Except TypeError Ty}
    (h : typeOf net.arena.nodes net.env id = orTypeError r) : net.Infers id r := by
  induction id using Nat.strong_induction_on generalizing r with
  | _ id ih =>
    cases hid : net.arena.nodes[id]? with
    | none =>
      rw [typeOf, typeFrom_unknown (by simp), Arena.find?, hid] at h
      exact absurd h.symm (orTypeError_ne_defect r _)
    | some n =>
      have hlt : ∀ x ∈ n.operands, x < id := ho id n hid
      rw [typeOf_node ho hid] at h
      obtain ⟨t, place, rfl⟩ := hb.plain id n hid
      cases t with
      | literal c =>
        obtain rfl := orTypeError_injective (r := .ok c.ty) h
        exact .literal hid
      | input m =>
        change orDefect (net.env.input m) = _ at h
        cases hm : net.neurons[m]? with
        | none =>
          simp only [env, neuron, hm] at h
          exact absurd h.symm (orTypeError_ne_defect r _)
        | some x =>
          rw [env_input hm] at h
          obtain rfl := orTypeError_injective (r := .ok x.inputTy) h
          exact .input hid hm
      | unary op x => exact .unary hid (ih _ (hlt _ List.mem_cons_self) h)
      | binary op x y =>
        have hx := hlt (place x) List.mem_cons_self
        have hy := hlt (place y) (List.mem_cons_of_mem _ List.mem_cons_self)
        rcases bind_eq_orTypeError h with ⟨e, he, rfl⟩ | ⟨t, ht, h⟩
        · exact .left hid (ih _ hx he)
        rcases bind_eq_orTypeError h with ⟨e, he, rfl⟩ | ⟨u, hu, h⟩
        · exact .right hid (ih _ hx ht) (ih _ hy he)
        obtain rfl := orTypeError_injective h
        unfold Rule.join
        split
        · exact .join hid (ih _ hx ht) (ih _ hy hu) ‹_›
        · exact .clash hid (ih _ hx ht) (ih _ hy hu) ‹_›
      | reduce kind x =>
        have hx := hlt (place x) List.mem_cons_self
        rcases bind_eq_orTypeError h with ⟨e, he, rfl⟩ | ⟨t, ht, h⟩
        · exact .reduced hid (ih _ hx he)
        obtain rfl := orTypeError_injective h
        unfold Rule.reduce
        split
        · exact .empty hid (ih _ hx ht)
        · exact .reduce hid (ih _ hx ht) (by simp_all)
        · exact .single hid (ih _ hx ht)
      | activate name x =>
        have hx := hlt (place x) List.mem_cons_self
        rcases bind_eq_orTypeError h with ⟨e, he, rfl⟩ | ⟨t, ht, h⟩
        · exact .activated hid (ih _ hx he)
        obtain rfl := orTypeError_injective h
        cases t with
        | scalar s => exact .activate hid (ih _ hx ht)
        | vector s len => exact .vector hid (ih _ hx ht)

namespace Network

variable {net : Network} {l : LayerId} {p : Nat} {n : NeuronId} {root : NodeId}

theorem Accepts.checkingNeuron (ho : Arena.Ordered net.arena.nodes)
    (hroot : net.forward? n = some root) (h : net.Accepts n root) :
    net.checkingNeuron l p n = .ok () := by
  obtain ⟨s, hs⟩ := h.scalar
  simp only [Network.checkingNeuron, hroot, any_of_readsOwn h.own, hs.typeOf_eq ho]
  rfl

theorem Rejects.checkingNeuron (ho : Arena.Ordered net.arena.nodes)
    (hroot : net.forward? n = some root) {e : TypeError} (h : net.Rejects l p n root e) :
    net.checkingNeuron l p n = .error (.error (.type e)) := by
  cases h with
  | foreign hx hm hne =>
    have hany : (Arena.inputNeurons net.arena.nodes root).any (· != n) = true :=
      List.any_eq_true.2 ⟨_, mem_inputNeurons.2 ⟨_, hx, hm⟩, by simpa using hne⟩
    simp only [Network.checkingNeuron, hroot, hany]
    rfl
  | illTyped hown he =>
    simp only [Network.checkingNeuron, hroot, any_of_readsOwn hown, he.typeOf_eq ho]
    rfl
  | notScalar hown ht =>
    simp only [Network.checkingNeuron, hroot, any_of_readsOwn hown, ht.typeOf_eq ho]
    rfl

/-- There is a verdict on every expression. One that reads its own inputs only meets no defect,
since its neuron is there. -/
theorem accepts_or_rejects (hw : net.WellFormed) (hb : net.Built) {x : Neuron}
    (hx : net.neurons[n]? = some x) (hroot : net.forward? n = some root) (l : LayerId) (p : Nat) :
    net.Accepts n root ∨ ∃ e, net.Rejects l p n root e := by
  by_cases hown : ReadsOwn net.arena.nodes n root
  · have howned : net.Owned n := by
      refine ⟨x, hx, fun root' hroot' => ?_⟩
      obtain rfl : root' = root := by simpa [forward?, hx, hroot'] using hroot
      exact ⟨hb.rooted n x hx root' hroot', hown⟩
    obtain ⟨r, hr⟩ := typeOf_resolved hw.ordered (howned.resolved hw.ordered hroot)
      fun y m _ hm => (hb.plain y m hm).readsKernel
    have hinfers := infers_of_typeOf hw.ordered hb hr
    cases r with
    | error e => exact .inr ⟨e, .illTyped hown hinfers⟩
    | ok t =>
      cases t with
      | scalar s => exact .inl ⟨hown, s, hinfers⟩
      | vector s len => exact .inr ⟨_, .notScalar hown hinfers⟩
  · simp only [ReadsOwn, not_forall] at hown
    obtain ⟨y, m, hy, hm, hne⟩ := hown
    exact .inr ⟨_, .foreign hy hm hne⟩

end Network

namespace Network

variable {net : Network}

/-- Which places come before a place, layer by layer. -/
def Before (l' : LayerId) (p' : Nat) (l : LayerId) (p : Nat) : Prop := l' < l ∨ l' = l ∧ p' < p

theorem checkingNeuron_eq_ok (hw : net.WellFormed) (hb : net.Built) {l : LayerId} {p : Nat}
    {n : NeuronId} (hat : net.neuronAt l p = .ok n) :
    net.checkingNeuron l p n = .ok () ↔ ∀ root, net.Forward l p n root → net.Accepts n root := by
  obtain ⟨layer, hl, hp⟩ := neuronAt_eq_ok.1 hat
  obtain ⟨x, hx, _⟩ := hw.placed l layer p n hl hp
  constructor
  · intro h root hroot
    rcases accepts_or_rejects hw hb hx hroot.2 l p with haccepts | ⟨e, hrejects⟩
    · exact haccepts
    · rw [hrejects.checkingNeuron hw.ordered hroot.2] at h
      cases h
  · intro h
    cases hroot : net.forward? n with
    | none => simp only [Network.checkingNeuron, hroot]
    | some root => exact (h root ⟨hat, hroot⟩).checkingNeuron hw.ordered hroot

theorem checkingNeuron_eq_error (hw : net.WellFormed) (hb : net.Built) {l : LayerId} {p : Nat}
    {n : NeuronId} (hat : net.neuronAt l p = .ok n) {f : Failure} :
    net.checkingNeuron l p n = .error f ↔
      ∃ root e, net.Forward l p n root ∧ net.Rejects l p n root e ∧ f = .error (.type e) := by
  obtain ⟨layer, hl, hp⟩ := neuronAt_eq_ok.1 hat
  obtain ⟨x, hx, _⟩ := hw.placed l layer p n hl hp
  constructor
  · intro h
    cases hroot : net.forward? n with
    | none =>
      simp only [Network.checkingNeuron, hroot] at h
      cases h
    | some root =>
      rcases accepts_or_rejects hw hb hx hroot l p with haccepts | ⟨e, hrejects⟩
      · rw [haccepts.checkingNeuron hw.ordered hroot] at h
        cases h
      · rw [hrejects.checkingNeuron hw.ordered hroot] at h
        exact ⟨root, e, ⟨hat, hroot⟩, hrejects, (Except.error.inj h).symm⟩
  · rintro ⟨root, e, hroot, hrejects, rfl⟩
    exact hrejects.checkingNeuron hw.ordered hroot.2

theorem checkingLayer_eq_ok (hw : net.WellFormed) (hb : net.Built) {l : LayerId} {layer : Layer}
    (hl : net.layers[l]? = some layer) :
    layer.neurons.zipIdx.forM (fun r => net.checkingNeuron l r.2 r.1) = .ok () ↔
      ∀ p n root, net.Forward l p n root → net.Accepts n root := by
  rw [forM_zipIdx_eq_ok]
  constructor
  · intro h p n root hroot
    obtain ⟨layer', hl', hp⟩ := neuronAt_eq_ok.1 hroot.1
    obtain rfl : layer' = layer := by simpa [hl'] using hl
    exact (checkingNeuron_eq_ok hw hb hroot.1).1 (h p n hp) root hroot
  · intro h p n hp
    exact (checkingNeuron_eq_ok hw hb (neuronAt_eq_ok.2 ⟨layer, hl, hp⟩)).2 (h p n)

theorem WellFormed.exists_forward (hw : net.WellFormed) {n : NeuronId} {root : NodeId}
    (h : net.forward? n = some root) : ∃ l p, net.Forward l p n root := by
  obtain ⟨x, hx, _⟩ := Option.bind_eq_some_iff.1 h
  obtain ⟨layer, hl, hp⟩ := hw.listed n x hx
  exact ⟨x.layer, x.position, neuronAt_eq_ok.2 ⟨layer, hl, hp⟩, h⟩

/-- The check accepts exactly the networks that it should accept. -/
theorem checking_eq_ok (hw : net.WellFormed) (hb : net.Built) :
    net.checking = .ok () ↔ ∀ n root, net.forward? n = some root → net.Accepts n root := by
  rw [checking, forM_zipIdx_eq_ok]
  constructor
  · intro h n root hroot
    obtain ⟨l, p, hforward⟩ := hw.exists_forward hroot
    obtain ⟨layer, hl, _⟩ := neuronAt_eq_ok.1 hforward.1
    exact (checkingLayer_eq_ok hw hb hl).1 (h l layer (by simpa using hl)) p n root hforward
  · intro h l layer hl
    refine (checkingLayer_eq_ok hw hb (by simpa using hl)).2 fun p n root hforward => ?_
    exact h n root hforward.2

/-- Where it stops, it reports the first neuron that it cannot accept. -/
theorem checking_eq_error (hw : net.WellFormed) (hb : net.Built) {f : Failure} :
    net.checking = .error f ↔ ∃ l p n root e, net.Forward l p n root ∧
      net.Rejects l p n root e ∧ f = .error (.type e) ∧
      ∀ l' p' n' root', net.Forward l' p' n' root' → Before l' p' l p →
        net.Accepts n' root' := by
  rw [checking, forM_zipIdx_eq_error]
  constructor
  · rintro ⟨l, layer, hl, hlayer, habove⟩
    rw [Array.getElem?_toList] at hl
    obtain ⟨p, n, hp, hn, hbefore⟩ := forM_zipIdx_eq_error.1 hlayer
    have hat := neuronAt_eq_ok.2 ⟨layer, hl, hp⟩
    obtain ⟨root, e, hroot, hrejects, hf⟩ := (checkingNeuron_eq_error hw hb hat).1 hn
    refine ⟨l, p, n, root, e, hroot, hrejects, hf, fun l' p' n' root' hroot' horder => ?_⟩
    obtain ⟨layer', hl', hp'⟩ := neuronAt_eq_ok.1 hroot'.1
    rcases horder with hlt | ⟨rfl, hlt⟩
    · have hok := habove l' hlt layer' (by simpa using hl')
      exact (checkingLayer_eq_ok hw hb hl').1 hok p' n' root' hroot'
    · obtain rfl : layer' = layer := by simpa [hl'] using hl
      exact (checkingNeuron_eq_ok hw hb hroot'.1).1 (hbefore p' hlt n' hp') root' hroot'
  · rintro ⟨l, p, n, root, e, hroot, hrejects, rfl, hbefore⟩
    obtain ⟨layer, hl, hp⟩ := neuronAt_eq_ok.1 hroot.1
    refine ⟨l, layer, by simpa using hl, ?_, fun l' hlt layer' hl' => ?_⟩
    · refine forM_zipIdx_eq_error.2 ⟨p, n, hp, hrejects.checkingNeuron hw.ordered hroot.2, ?_⟩
      intro p' hlt n' hp'
      have hat' := neuronAt_eq_ok.2 ⟨layer, hl, hp'⟩
      refine (checkingNeuron_eq_ok hw hb hat').2 fun root' hroot' => ?_
      exact hbefore l p' n' root' hroot' (.inr ⟨rfl, hlt⟩)
    · refine (checkingLayer_eq_ok hw hb (by simpa using hl')).2 fun p' n' root' hroot' => ?_
      exact hbefore l' p' n' root' hroot' (.inl hlt)

end Network

/-- The type check meets no defect. It accepts a network exactly if every expression reads the
inputs of its own neuron only and is of a scalar type; all that the expressions reach has a type
then, and the lengths of vectors are known. Otherwise it reports what is wrong with the first
neuron, layer by layer, whose expression is not so. -/
theorem check_reports_first_fault {s : Session} (hs : s.Reachable) :
    (∀ f, Pass.check.result s = .error f → ∃ e, f = .error (.type e)) ∧
    (Pass.check.result s = .ok () ↔
      ∀ n root, s.net.forward? n = some root → s.net.Accepts n root) ∧
    (∀ e, Pass.check.result s = .error (.error (.type e)) ↔
      ∃ l p n root, s.net.Forward l p n root ∧ s.net.Rejects l p n root e ∧
        ∀ l' p' n' root', s.net.Forward l' p' n' root' → Network.Before l' p' l p →
          s.net.Accepts n' root') ∧
    (Pass.check.result s = .ok () → ∀ n root x, s.net.forward? n = some root →
      (Arena.dag s.net.arena.nodes).Reaches root x →
        ∃ t, s.net.Infers x (.ok t) ∧ (Pass.infer x).result s = .ok t ∧
          ∀ elem len, t = .vector elem len → ∃ k, len = some k) := by
  have hw := hs.wellFormed
  have hb := hs.built
  have hresult : Pass.check.result s = s.net.checking := (Pass.Answers.checking hw).result hw
  rw [hresult]
  refine ⟨fun f hf => ?_, Network.checking_eq_ok hw hb, fun e => ?_, ?_⟩
  · obtain ⟨_, _, _, _, e, _, _, he, _⟩ := (Network.checking_eq_error hw hb).1 hf
    exact ⟨e, he⟩
  · simp only [Network.checking_eq_error hw hb, Failure.error.injEq, Error.type.injEq]
    constructor
    · rintro ⟨l, p, n, root, _, hroot, hrejects, rfl, hbefore⟩
      exact ⟨l, p, n, root, hroot, hrejects, hbefore⟩
    · rintro ⟨l, p, n, root, hroot, hrejects, hbefore⟩
      exact ⟨l, p, n, root, e, hroot, hrejects, rfl, hbefore⟩
  · intro h n root x hroot hx
    obtain ⟨t, ht⟩ := ((Network.checking_eq_ok hw hb).1 h n root hroot).scalar
    obtain ⟨u, hu⟩ := typeOf_of_reaches hw.ordered hx (ht.typeOf_eq hw.ordered)
    refine ⟨u, Network.infers_of_typeOf hw.ordered hb hu, ?_, ?_⟩
    · exact ((Pass.Answers.infer x).result hw).trans hu
    · obtain ⟨extent, rfl⟩ := extent_of_typeOf hw.ordered hu
      intro elem len hvector
      cases extent <;> cases hvector
      exact ⟨_, rfl⟩

/-- The second neuron reads the inputs of a neuron that is not there, and the third is a vector.
Asked for the type of the second, the session remembers that of its first operand. -/
def misread : List Request := [.addLayer, .addNeuron 0 .input, .addNeuron 0 .hidden,
  .addLayer, .addNeuron 1 .hidden, .connect 0 2,
  .setForward 0 { above := [.input 0], last := .unary .minus 0 },
  .setForward 2 { above := [.input 2], last := .unary .plus 0 },
  .setForward 1 { above := [.literal (.bool true), .input 9], last := .binary .add 0 1 },
  .infer 6]

/-- The same network with other expressions for the two neurons. -/
def mended : List Request := misread ++ [.connect 0 1,
  .setForward 1 { above := [.input 1, .literal (.vec [⟨3⟩, ⟨4⟩]), .binary .sub 0 1],
                  last := .reduce .product 2 },
  .setForward 2 { above := [.literal (.int 6)], last := .activate "relu" 0 }]

theorem misread_reports_first_fault : (Session.ofRequests misread).Reachable ∧
    (Pass.infer 6).result (.ofRequests misread) = .error (.defect (.outOfRange 3 9)) ∧
    (Session.ofRequests misread).net.arena.types.toList = [(4, .bool)] ∧
    Pass.check.result (.ofRequests misread) = .error (.error (.type (.foreignInput 0 1))) ∧
    (∃ l p n root, (Session.ofRequests misread).net.Forward l p n root ∧
      (Session.ofRequests misread).net.Rejects l p n root (.foreignInput 0 1)) ∧
    Pass.check.result (.ofRequests mended) = .ok () ∧
    (Pass.infer 9).result (.ofRequests mended) = .ok (.vectorOf .real 1) ∧
    ∃ t, (Session.ofRequests mended).net.Infers 9 (.ok t) := by
  have hs := Session.reachable_ofRequests misread
  have hs' := Session.reachable_ofRequests mended
  have hfault : Pass.check.result (.ofRequests misread) =
      .error (.error (.type (.foreignInput 0 1))) := by decide +kernel
  have hok : Pass.check.result (.ofRequests mended) = .ok () := by decide +kernel
  obtain ⟨-, -, hfirst, -⟩ := check_reports_first_fault hs
  obtain ⟨l, p, n, root, hroot, hrejects, -⟩ := (hfirst _).1 hfault
  obtain ⟨-, -, -, htyped⟩ := check_reports_first_fault hs'
  have hroot' : (Session.ofRequests mended).net.forward? 1 = some 10 := by decide +kernel
  have hbelow : 9 ∈ (Arena.dag (Session.ofRequests mended).net.arena.nodes).preorder 10 := by
    decide +kernel
  obtain ⟨t, ht, -, -⟩ := htyped hok 1 10 9 hroot' (Dag.mem_preorder.1 hbelow)
  exact ⟨hs, by decide +kernel, by decide +kernel, hfault, ⟨l, p, n, root, hroot, hrejects⟩, hok,
    by decide +kernel, t, ht⟩

end Synapse
