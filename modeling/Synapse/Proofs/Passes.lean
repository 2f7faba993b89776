import Mathlib.Tactic
import Synapse.Network.Session
import Synapse.Proofs.WellFormed

namespace Synapse

def Network.withTypes (net : Network) (types : Types) : Network :=
  { net with arena := { net.arena with types } }

/-- A session that works on a network, with coherent types of its own. -/
def Session.On (s : Session) (net : Network) : Prop :=
  ∃ types, Coherent ∅ net.arena.nodes net.env types ∧ s.net = net.withTypes types

/-- A pass has one outcome on a network, whatever session it runs in; `P` holds of the outcome. -/
def Pass.Answers (net : Network) {α : Type} (x : Pass α) (P : Except Failure α → Prop) : Prop :=
  ∃ r, P r ∧ ∀ s : Session, s.On net → ∃ s' : Session, s'.On net ∧ x s = outcome r s'

/-- If there is a result, `Q` holds of it. -/
def Gives {α : Type} (Q : α → Prop) (r : Except Failure α) : Prop := ∀ a, r = .ok a → Q a

theorem Pass.bind_of_ok {α β : Type} {x : Pass α} {f : α → Pass β} {a : α} {s s' : Session}
    (h : x s = .ok a s') : (x >>= f) s = f a s' := by
  change EStateM.bind x f s = _
  rw [EStateM.bind, h]

theorem Pass.bind_of_error {α β : Type} {x : Pass α} {f : α → Pass β} {e : Failure} {s s' : Session}
    (h : x s = .error e s') : (x >>= f) s = .error e s' := by
  change EStateM.bind x f s = _
  rw [EStateM.bind, h]

namespace Pass.Answers

variable {net : Network} {α β : Type}

theorem imp {x : Pass α} {P Q : Except Failure α → Prop} (h : Answers net x P)
    (hpq : ∀ r, P r → Q r) : Answers net x Q := by
  obtain ⟨r, hr, hx⟩ := h
  exact ⟨r, hpq r hr, hx⟩

/-- The types that a network remembers do not matter. -/
theorem withTypes (types : Types) {x : Pass α} {P : Except Failure α → Prop}
    (h : Answers net x P) : Answers (net.withTypes types) x P := h

theorem gives {x : Pass α} {P : Except Failure α → Prop} {Q : α → Prop} (h : Answers net x P)
    (hpq : ∀ a, P (.ok a) → Q a) : Answers net x (Gives Q) :=
  h.imp fun _ hr a ha => hpq a (ha ▸ hr)

theorem pure {P : Except Failure α → Prop} {a : α} (h : P (.ok a)) :
    Answers net (Pure.pure a) P :=
  ⟨.ok a, h, fun s hs => ⟨s, hs, rfl⟩⟩

theorem throw {P : Except Failure α → Prop} {e : Failure} (h : P (.error e)) :
    Answers net (MonadExcept.throw e : Pass α) P :=
  ⟨.error e, h, fun s hs => ⟨s, hs, rfl⟩⟩

theorem bind {x : Pass α} {f : α → Pass β} {P : Except Failure α → Prop}
    {R : Except Failure β → Prop} (hx : Answers net x P)
    (hf : ∀ a, P (.ok a) → Answers net (f a) R) (he : ∀ e, P (.error e) → R (.error e)) :
    Answers net (x >>= f) R := by
  obtain ⟨r, hr, hx⟩ := hx
  cases r with
  | error e =>
    refine ⟨.error e, he e hr, fun s hs => ?_⟩
    obtain ⟨s', hs', hxs⟩ := hx s hs
    refine ⟨s', hs', ?_⟩
    exact bind_of_error hxs
  | ok a =>
    obtain ⟨q, hq, hfa⟩ := hf a hr
    refine ⟨q, hq, fun s hs => ?_⟩
    obtain ⟨s', hs', hxs⟩ := hx s hs
    obtain ⟨s'', hs'', hfs⟩ := hfa s' hs'
    refine ⟨s'', hs'', ?_⟩
    exact (bind_of_ok hxs).trans hfs

theorem bindGives {x : Pass α} {f : α → Pass β} {Q : α → Prop} {R : β → Prop}
    (hx : Answers net x (Gives Q)) (hf : ∀ a, Q a → Answers net (f a) (Gives R)) :
    Answers net (x >>= f) (Gives R) :=
  hx.bind (fun a ha => hf a (ha a rfl)) fun e _ b hb => by cases hb

theorem orDefect (r : Except Defect α) :
    Answers net (orDefect r) (fun q => q = Synapse.orDefect r) := by
  cases r with
  | error e => exact throw rfl
  | ok a => exact pure rfl

theorem report (e : Event) {P : Except Failure Unit → Prop} (h : P (.ok ())) :
    Answers net (Pass.report e) P :=
  ⟨.ok (), h, fun s hs => ⟨{ s with log := s.log.push e }, hs, rfl⟩⟩

/-- What follows may use all of the network but the types remembered. -/
theorem network {f : Network → Pass β} {R : Except Failure β → Prop}
    (hf : ∀ types, f (net.withTypes types) = f net) (h : Answers net (f net) R) :
    Answers net (Pass.network >>= f) R := by
  obtain ⟨r, hr, hx⟩ := h
  refine ⟨r, hr, fun s hs => ?_⟩
  obtain ⟨s', hs', hfs⟩ := hx s hs
  obtain ⟨types, _, hnet⟩ := hs
  refine ⟨s', hs', ?_⟩
  change f s.net s = _
  rw [hnet, hf, hfs]

theorem typing {x : Network → Typing α} {r : Except Failure α} {P : Except Failure α → Prop}
    (hx : ∀ types, x (net.withTypes types) = x net)
    (h : Typing.Finds ∅ net.arena.nodes net.env (x net) r) (hr : P r) :
    Answers net (Pass.typing x) P := by
  refine ⟨r, hr, fun s hs => ?_⟩
  obtain ⟨types, hc, hnet⟩ := hs
  obtain ⟨types', hc', hrun⟩ := h types hc
  refine ⟨{ s with net := net.withTypes types' }, ⟨types', hc', rfl⟩, ?_⟩
  have htypes : (net.withTypes types).arena.types = types := rfl
  simp only [Pass.typing, Typing.on, hnet, hx, htypes, hrun]
  cases r <;> rfl

theorem infer (id : NodeId) :
    Answers net (Pass.infer id) (fun r => r = Synapse.typeOf net.arena.nodes net.env id) :=
  typing (fun _ => rfl) (finds_infer ∅ net.arena.nodes net.env id) rfl

theorem neuron (n : NeuronId) :
    Answers net (Pass.neuron n) (Gives fun x => net.neurons[n]? = some x) :=
  network (fun _ => rfl) ((orDefect _).gives fun _ hx =>
    Network.neuron_eq_ok.1 (orDefect_eq_ok.1 hx.symm))

theorem layer (l : LayerId) :
    Answers net (Pass.layer l) (Gives fun x => net.layers[l]? = some x) :=
  network (fun _ => rfl) ((orDefect _).gives fun _ hx =>
    Network.layer_eq_ok.1 (orDefect_eq_ok.1 hx.symm))

theorem attempt {x : Pass α} {P : Except Failure α → Prop}
    {R : Except Failure (Except Error α) → Prop} (hx : Answers net x P)
    (hok : ∀ a, P (.ok a) → R (.ok (.ok a)))
    (herror : ∀ e, P (.error (.error e)) → R (.ok (.error e)))
    (hdefect : ∀ d, P (.error (.defect d)) → R (.error (.defect d))) :
    Answers net (attempt x) R := by
  obtain ⟨r, hr, hx⟩ := hx
  match r, hr, hx with
  | .ok a, hr, hx =>
    refine ⟨_, hok a hr, fun s hs => ?_⟩
    obtain ⟨s', hs', hxs⟩ := hx s hs
    exact ⟨s', hs', by rw [Synapse.attempt, hxs]; rfl⟩
  | .error (.error e), hr, hx =>
    refine ⟨_, herror e hr, fun s hs => ?_⟩
    obtain ⟨s', hs', hxs⟩ := hx s hs
    exact ⟨s', hs', by rw [Synapse.attempt, hxs]; rfl⟩
  | .error (.defect d), hr, hx =>
    refine ⟨_, hdefect d hr, fun s hs => ?_⟩
    obtain ⟨s', hs', hxs⟩ := hx s hs
    exact ⟨s', hs', by rw [Synapse.attempt, hxs]; rfl⟩

theorem mapM {f : α → Pass β} {xs : List α} {Q : α → β → Prop}
    (h : ∀ x ∈ xs, Answers net (f x) (Gives (Q x))) :
    Answers net (xs.mapM f) (Gives (List.Forall₂ Q xs)) := by
  induction xs with
  | nil => exact pure fun ys hys => by cases hys; exact .nil
  | cons x xs ih =>
    rw [List.mapM_cons]
    refine (h x (by simp)).bindGives fun y hy => ?_
    refine (ih fun z hz => h z (by simp [hz])).bindGives fun ys hys => ?_
    exact pure fun zs hzs => by cases hzs; exact .cons hy hys

theorem forM {f : α → Pass PUnit} {xs : List α} {Q : α → Prop}
    (h : ∀ x ∈ xs, Answers net (f x) (Gives fun _ => Q x)) :
    Answers net (xs.forM f) (Gives fun _ => ∀ x ∈ xs, Q x) := by
  induction xs with
  | nil => exact pure fun _ _ => by simp
  | cons x xs ih =>
    change Answers net (f x >>= fun _ => xs.forM f) _
    refine (h x (by simp)).bindGives fun _ hx => ?_
    refine (ih fun z hz => h z (by simp [hz])).gives fun _ hxs => ?_
    simpa using ⟨hx, hxs _ rfl⟩

end Pass.Answers

/-- A pass returns `a` on a network, whatever session it runs in. -/
abbrev Pass.Returns (net : Network) {α : Type} (x : Pass α) (a : α) : Prop :=
  Answers net x (· = .ok a)

namespace Pass.Returns

variable {net : Network} {α β : Type}

theorem pure (a : α) : Returns net (Pure.pure a) a := Answers.pure rfl

theorem bind {x : Pass α} {a : α} {f : α → Pass β} {R : Except Failure β → Prop}
    (hx : Returns net x a) (hf : Answers net (f a) R) : Answers net (x >>= f) R := by
  apply Answers.bind hx
  · intro b hb
    obtain rfl := Except.ok.inj hb
    exact hf
  · intro e he
    cases he

theorem orDefect {r : Except Defect α} {a : α} (h : r = .ok a) :
    Returns net (Synapse.orDefect r) a := by
  rw [h]
  exact pure a

theorem report (e : Event) : Returns net (Pass.report e) () := Answers.report e rfl

theorem neuron {n : NeuronId} {x : Neuron} (h : net.neurons[n]? = some x) :
    Returns net (Pass.neuron n) x :=
  Answers.network (fun _ => rfl) (orDefect (Network.neuron_eq_ok.2 h))

theorem layer {l : LayerId} {x : Layer} (h : net.layers[l]? = some x) :
    Returns net (Pass.layer l) x :=
  Answers.network (fun _ => rfl) (orDefect (Network.layer_eq_ok.2 h))

theorem infer {id : NodeId} {t : Ty} (h : Synapse.typeOf net.arena.nodes net.env id = .ok t) :
    Returns net (Pass.infer id) t :=
  (Answers.infer id).imp fun _ hr => hr.trans h

theorem mapM {f : α → Pass β} {xs : List α} {ys : List β}
    (h : List.Forall₂ (fun x y => Returns net (f x) y) xs ys) : Returns net (xs.mapM f) ys := by
  induction h with
  | nil => exact pure []
  | cons hxy _ ih =>
    rw [List.mapM_cons]
    apply bind hxy
    apply bind ih
    exact pure _

theorem map {f : α → Pass β} {g : α → β} {xs : List α} (h : ∀ x ∈ xs, Returns net (f x) (g x)) :
    Returns net (xs.mapM f) (xs.map g) :=
  mapM (List.forall₂_map_right_iff.2 (List.forall₂_same.2 h))

theorem forM {f : α → Pass PUnit} {xs : List α} (h : ∀ x ∈ xs, Returns net (f x) ()) :
    Returns net (xs.forM f) () := by
  induction xs with
  | nil => exact pure ()
  | cons x xs ih =>
    change Answers net (f x >>= fun _ => xs.forM f) _
    exact bind (h x List.mem_cons_self) (ih fun y hy => h y (List.mem_cons_of_mem _ hy))

end Pass.Returns

/-- A pass returns something of which `Q` holds, whatever session it runs in. -/
abbrev Pass.Yields (net : Network) {α : Type} (x : Pass α) (Q : α → Prop) : Prop :=
  Answers net x fun r => ∃ a, r = .ok a ∧ Q a

namespace Pass.Yields

variable {net : Network} {α β : Type}

theorem bind {x : Pass α} {Q : α → Prop} {f : α → Pass β} {R : Except Failure β → Prop}
    (hx : Yields net x Q) (hf : ∀ a, Q a → Answers net (f a) R) : Answers net (x >>= f) R := by
  apply Answers.bind hx
  · rintro a ⟨b, hab, hb⟩
    obtain rfl := Except.ok.inj hab
    exact hf a hb
  · rintro e ⟨a, he, _⟩
    cases he

theorem mapM {f : α → Pass β} {xs : List α} (h : ∀ x ∈ xs, Yields net (f x) fun _ => True) :
    Yields net (xs.mapM f) fun _ => True := by
  induction xs with
  | nil => exact Answers.pure ⟨[], rfl, trivial⟩
  | cons x xs ih =>
    rw [List.mapM_cons]
    apply bind (h x List.mem_cons_self)
    intro y _
    apply bind (ih fun z hz => h z (List.mem_cons_of_mem _ hz))
    intro ys _
    exact Answers.pure ⟨_, rfl, trivial⟩

/-- A fold succeeds where every step does and keeps what the next one needs. -/
theorem foldlM {f : β → α → Pass β} {P : β → Prop} {xs : List α}
    (h : ∀ x ∈ xs, ∀ b, P b → Yields net (f b x) P) {b : β} (hb : P b) :
    Yields net (xs.foldlM f b) P := by
  induction xs generalizing b with
  | nil => exact Answers.pure ⟨b, rfl, hb⟩
  | cons x xs ih =>
    rw [List.foldlM_cons]
    apply bind (h x List.mem_cons_self b hb)
    intro b' hb'
    exact ih (fun y hy => h y (List.mem_cons_of_mem _ hy)) hb'

end Pass.Yields

end Synapse
