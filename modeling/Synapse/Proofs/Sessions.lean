import Mathlib.Tactic
import Synapse.Compile
import Synapse.Proofs.Histories
import Synapse.Proofs.Layers

namespace Synapse

/-- What a caller may ask of a session. -/
inductive Request where
  | addLayer
  | addNeuron (l : LayerId) (kind : NeuronKind)
  | connect (src sink : NeuronId)
  | connectLayers (src sink : LayerId) (wanted : Network.Connections)
  | setForward (n : NeuronId) (s : Sketch)
  | addProperty (n : NeuronId) (name : String) (value : Property)
  | infer (id : NodeId)
  | sameShape (a b : NodeId)
  | check
  | mergeable (a b : NeuronId)
  | collect (l : LayerId)
  | ensembles (l : LayerId)
  | group
  | ensembleListing
  | lower
  | compile (o : Options)

namespace Pass

/-- The session after a pass, whether it succeeds or stops. -/
def after {α : Type} (x : Pass α) (s : Session) : Session :=
  match x s with
  | .ok _ s' => s'
  | .error _ s' => s'

/-- What a pass gives in a session. -/
def result {α : Type} (x : Pass α) (s : Session) : Except Failure α :=
  match x s with
  | .ok a _ => .ok a
  | .error e _ => .error e

/-- A pass that changes networks by their own operations only, whether it succeeds or stops. -/
def Develops {α : Type} (x : Pass α) : Prop :=
  ∀ s : Session, s.net.WellFormed → s.net.Develops (x.after s).net

end Pass

def Request.run (r : Request) (s : Session) : Session :=
  match r with
  | .addLayer => Pass.addLayer.after s
  | .addNeuron l kind => (Pass.addNeuron l kind).after s
  | .connect src sink => (Pass.connect src sink).after s
  | .connectLayers src sink wanted => (Pass.connectLayers src sink wanted).after s
  | .setForward n e => (Pass.setForward n e).after s
  | .addProperty n name value => (Pass.addProperty n name value).after s
  | .infer id => (Pass.infer id).after s
  | .sameShape a b => (Pass.sameShape a b).after s
  | .check => Pass.check.after s
  | .mergeable a b => (Pass.mergeable a b).after s
  | .collect l => (Pass.collect l).after s
  | .ensembles l => (Pass.ensembles l).after s
  | .group => Pass.group.after s
  | .ensembleListing => Pass.ensembleListing.after s
  | .lower => Pass.lower.after s
  | .compile o => (Pass.compile o).after s

/-- Sessions to which requests lead, from the empty one on. -/
inductive Session.Reachable : Session → Prop
  | start : Reachable {}
  | step {s : Session} (r : Request) (h : Reachable s) : Reachable (r.run s)

/-- The session after some requests. -/
def Session.ofRequests (rs : List Request) : Session := rs.foldl (fun s r => r.run s) {}

theorem Session.reachable_ofRequests (rs : List Request) : (ofRequests rs).Reachable := by
  have h : ∀ s : Session, s.Reachable → (rs.foldl (fun s r => r.run s) s).Reachable := by
    induction rs with
    | nil => exact fun s hs => hs
    | cons r rs ih => exact fun s hs => ih _ (.step r hs)
  exact h {} .start

/-- The outcome of a pass that only asks, in a session with a well-formed network. -/
theorem Pass.Answers.run {α : Type} {x : Pass α} {s : Session} {P : Except Failure α → Prop}
    (h : Answers s.net x P) (hw : s.net.WellFormed) :
    ∃ r s', P r ∧ x s = outcome r s' ∧ s'.On s.net := by
  obtain ⟨r, hr, hx⟩ := h
  obtain ⟨s', hs', hxs⟩ := hx s (Session.on_self hw)
  exact ⟨r, s', hr, hxs, hs'⟩

theorem Pass.result_of_outcome {α : Type} {x : Pass α} {r : Except Failure α} {s s' : Session}
    (h : x s = outcome r s') : x.result s = r := by
  rw [result, h]
  cases r <;> rfl

theorem Pass.result_eq_ok {α : Type} {x : Pass α} {s : Session} {a : α} :
    x.result s = .ok a ↔ ∃ s', x s = .ok a s' := by
  unfold result
  cases x s <;> simp

theorem Pass.result_bind {α β : Type} {x : Pass α} {f : α → Pass β} {r : Except Failure α}
    {s s' : Session} (h : x s = outcome r s') :
    (x >>= f).result s = r >>= fun a => (f a).result s' := by
  change result (EStateM.bind x f) s = _
  rw [result, EStateM.bind, h]
  cases r <;> rfl

theorem Pass.after_of_outcome {α : Type} {x : Pass α} {r : Except Failure α} {s s' : Session}
    (h : x s = outcome r s') : x.after s = s' := by
  rw [after, h]
  cases r <;> rfl

theorem Pass.Answers.result {α : Type} {x : Pass α} {s : Session} {P : Except Failure α → Prop}
    (h : Answers s.net x P) (hw : s.net.WellFormed) : P (x.result s) := by
  obtain ⟨r, s', hr, hrun, _⟩ := h.run hw
  rwa [result_of_outcome hrun]

/-- What a pass that only asks gives in one session it gives in every session on the network. -/
theorem Pass.Answers.exact {α : Type} {x : Pass α} {s : Session} {P : Except Failure α → Prop}
    (h : Answers s.net x P) (hw : s.net.WellFormed) : Answers s.net x (· = x.result s) := by
  obtain ⟨r, _, hall⟩ := h
  obtain ⟨s', _, hrun⟩ := hall s (Session.on_self hw)
  exact ⟨r, (result_of_outcome hrun).symm, hall⟩

theorem Session.infer_eq_ok {s : Session} (hw : s.net.WellFormed) {id : NodeId} {t : Ty} :
    (∃ s', Pass.infer id s = .ok t s') ↔ typeOf s.net.arena.nodes s.net.env id = .ok t := by
  obtain ⟨r, s', rfl, hrun, _⟩ := (Pass.Answers.infer id).run hw
  rw [hrun]
  cases typeOf s.net.arena.nodes s.net.env id <;> simp [outcome]

theorem Pass.after_bind {α β : Type} (x : Pass α) (f : α → Pass β) (s : Session) :
    (x >>= f).after s = match x s with
      | .ok a s' => (f a).after s'
      | .error _ s' => s' := by
  change after (EStateM.bind x f) s = _
  unfold after EStateM.bind
  cases x s <;> rfl

namespace Pass.Develops

variable {α β : Type}

theorem of_answers {x : Pass α} {P : Network → Except Failure α → Prop}
    (h : ∀ net : Network, net.WellFormed → Answers net x (P net)) : Develops x := by
  intro s hw
  obtain ⟨r, s', _, hxs, types, hc, hnet⟩ := (h s.net hw).run hw
  rw [after_of_outcome hxs, hnet]
  exact .single (.learn hc)

theorem pure (a : α) : Develops (Pure.pure a) := fun _ _ => .refl

theorem bind {x : Pass α} {f : α → Pass β} (hx : Develops x) (hf : ∀ a, Develops (f a)) :
    Develops (x >>= f) := by
  intro s hw
  have hxs := hx s hw
  rw [after_bind]
  unfold after at hxs
  cases h : x s with
  | ok a s' =>
    rw [h] at hxs
    exact hxs.trans (hf a s' (hxs.wellFormed hw))
  | error e s' =>
    rw [h] at hxs
    exact hxs

theorem network {f : Network → Pass β}
    (hf : ∀ s : Session, s.net.WellFormed → s.net.Develops ((f s.net).after s).net) :
    Develops (Pass.network >>= f) := hf

theorem report (e : Event) : Develops (Pass.report e) := fun _ _ => .refl

theorem orFail (r : Except Failure α) : Develops (orFail r) := by
  intro s hw
  cases r <;> exact .refl

theorem mapM {f : α → Pass β} (hf : ∀ a, Develops (f a)) (xs : List α) :
    Develops (xs.mapM f) := by
  induction xs with
  | nil => exact pure []
  | cons x xs ih =>
    rw [List.mapM_cons]
    exact (hf x).bind fun _ => ih.bind fun _ => pure _

theorem forM {f : α → Pass PUnit} (hf : ∀ a, Develops (f a)) (xs : List α) :
    Develops (xs.forM f) := by
  induction xs with
  | nil => exact pure ()
  | cons x xs ih => exact (hf x).bind fun _ => ih

theorem addLayer : Develops Pass.addLayer := fun s _ => .single (.addLayer s.net)

theorem addNeuron (l : LayerId) (kind : NeuronKind) : Develops (Pass.addNeuron l kind) := by
  refine network fun s hw => ?_
  cases h : s.net.addNeuron l kind with
  | error d => exact .refl
  | ok q => exact .single (.addNeuron h)

theorem connect (src sink : NeuronId) : Develops (Pass.connect src sink) := by
  refine network fun s hw => ?_
  cases h : s.net.connect src sink with
  | error e => exact .refl
  | ok net => exact .single (.connect h)

theorem connectLayers (src sink : LayerId) (wanted : Network.Connections) :
    Develops (Pass.connectLayers src sink wanted) := by
  refine network fun s hw => ?_
  have hadd : ∀ edges : List (NeuronId × NeuronId),
      Develops (edges.forM fun e => Pass.connect e.1 e.2) :=
    forM fun e => connect e.1 e.2
  have hall := (orFail (s.net.edgesBetween src sink wanted)).bind fun edges =>
    (report (.connecting src sink edges.length)).bind fun _ => hadd edges
  exact hall s hw

theorem setForward (n : NeuronId) (e : Sketch) : Develops (Pass.setForward n e) := by
  refine network fun s hw => ?_
  have hstep := Network.Becomes.setForward s.net n e
  cases h : s.net.setForward n e with
  | mk net root =>
    rw [h] at hstep
    cases root <;> exact .single hstep

theorem addProperty (n : NeuronId) (name : String) (value : Property) :
    Develops (Pass.addProperty n name value) := by
  refine network fun s hw => ?_
  cases h : s.net.addProperty n name value with
  | error d => exact .refl
  | ok q => exact .single (.addProperty h)

theorem groupLayer (l : LayerId) : Develops (Pass.groupLayer l) := by
  intro s hw
  obtain ⟨r, hr, hx⟩ := Answers.collect hw l
  obtain ⟨s', hs', hrun⟩ := hx s (Session.on_self hw)
  obtain ⟨types, hc, hnet⟩ := hs'
  have hlearn : s.net.Becomes s'.net := hnet ▸ .learn hc
  unfold Pass.groupLayer
  rw [after_bind, hrun]
  cases r with
  | error e => exact .single hlearn
  | ok es =>
    have hstore : s'.net.Becomes (s'.net.store l es) := by
      rw [hnet]
      exact .store (Answers.withTypes types ⟨.ok es, rfl, hx⟩)
    exact .tail (.single hlearn) hstore

theorem group : Develops Pass.group :=
  network fun s hw => forM groupLayer _ s hw

theorem ensembleListing : Develops Pass.ensembleListing := by
  refine network fun s hw => ?_
  refine ((mapM (fun l => ?_) _).bind fun _ => pure _) s hw
  exact (of_answers fun _ hw => Answers.ensembles hw l).bind fun _ => pure _

theorem lower : Develops Pass.lower := of_answers fun _ hw => Answers.lower hw

theorem sectionOf (wanted : Bool) {text : Pass String} (h : Develops text) :
    Develops (Pass.sectionOf wanted text) := by
  unfold Pass.sectionOf
  split
  · exact h.bind fun _ => pure _
  · exact pure _

theorem compile (o : Options) : Develops (Pass.compile o) := by
  refine (of_answers fun _ hw => Answers.check hw).bind fun _ => group.bind fun _ => ?_
  refine (sectionOf _ (network fun s hw => pure s.net.listing s hw)).bind fun _ => ?_
  refine (sectionOf _ ensembleListing).bind fun _ => lower.bind fun k => ?_
  refine (sectionOf _ (orFail _)).bind fun _ => network fun s hw => ?_
  exact ((report _).bind fun _ => pure _) s hw

end Pass.Develops

/-- Every request develops the network. -/
theorem Request.develops_run (r : Request) {s : Session} (hw : s.net.WellFormed) :
    s.net.Develops (r.run s).net := by
  cases r with
  | addLayer => exact Pass.Develops.addLayer s hw
  | addNeuron l kind => exact Pass.Develops.addNeuron l kind s hw
  | connect src sink => exact Pass.Develops.connect src sink s hw
  | connectLayers src sink wanted => exact Pass.Develops.connectLayers src sink wanted s hw
  | setForward n e => exact Pass.Develops.setForward n e s hw
  | addProperty n name value => exact Pass.Develops.addProperty n name value s hw
  | infer id => exact Pass.Develops.of_answers (fun _ _ => Pass.Answers.infer id) s hw
  | sameShape a b =>
    exact Pass.Develops.of_answers (fun _ hw => Pass.Answers.sameShape hw a b) s hw
  | check => exact Pass.Develops.of_answers (fun _ hw => Pass.Answers.check hw) s hw
  | mergeable a b =>
    exact Pass.Develops.of_answers (fun _ hw => Pass.Answers.mergeable hw a b) s hw
  | collect l => exact Pass.Develops.of_answers (fun _ hw => Pass.Answers.collect hw l) s hw
  | ensembles l => exact Pass.Develops.of_answers (fun _ hw => Pass.Answers.ensembles hw l) s hw
  | group => exact Pass.Develops.group s hw
  | ensembleListing => exact Pass.Develops.ensembleListing s hw
  | lower => exact Pass.Develops.lower s hw
  | compile o => exact Pass.Develops.compile o s hw

namespace Session.Reachable

theorem develops {s : Session} (h : s.Reachable) : Network.Develops {} s.net := by
  induction h with
  | start => exact .refl
  | step r _ ih => exact ih.trans (r.develops_run (ih.wellFormed Network.wellFormed_empty))

theorem wellFormed {s : Session} (h : s.Reachable) : s.net.WellFormed :=
  h.develops.wellFormed Network.wellFormed_empty

theorem built {s : Session} (h : s.Reachable) : s.net.Built :=
  h.develops.invariant (fun _ _ _ hstep hb => hstep.built hb) Network.wellFormed_empty
    Network.built_empty

end Session.Reachable

/-- The kernel of a session, if lowering succeeds. -/
def Session.kernel? (s : Session) : Option Kernel :=
  match Pass.lower s with
  | .ok k _ => some k
  | .error _ _ => none

theorem Session.kernel?_eq_some {s : Session} {k : Kernel} :
    s.kernel? = some k ↔ ∃ s', Pass.lower s = .ok k s' := by
  unfold kernel?
  split <;> simp_all

/-- A kernel that comes out of a reachable session was lowered from its network. -/
theorem Session.Reachable.lowered {s s' : Session} (h : s.Reachable) {k : Kernel}
    (hk : Pass.lower s = .ok k s') : Lowered s.net k := by
  obtain ⟨r, s'', hr, hrun, _⟩ := (Pass.Answers.lower h.wellFormed).run h.wellFormed
  rw [hk] at hrun
  cases r with
  | ok k' =>
    cases hrun
    exact hr k rfl
  | error e => cases hrun

/-- The session with the types it remembers forgotten. -/
def Session.forget (s : Session) : Session := { s with net := s.net.withTypes ∅ }

/-- What a pass that only asks gives does not depend on the types that a session remembers. -/
theorem Pass.Answers.result_forget {α : Type} {x : Pass α} {s : Session}
    {P : Except Failure α → Prop} (h : Answers s.net x P) (hw : s.net.WellFormed) :
    x.result s.forget = x.result s := by
  have hforget : s.forget.net.WellFormed := hw.withTypes (coherent_self ∅ _ _)
  exact Answers.result (s := s.forget) ((h.exact hw).withTypes ∅) hforget

/-- Whatever a session was asked before, the types that it remembers are those that the rules give
in the network as it is now, and inference gives what it gives without them. -/
theorem remembered_types_coherent {s : Session} (hs : s.Reachable) :
    (∀ id t, s.net.arena.types[id]? = some t →
      typeOf s.net.arena.nodes s.net.env id = .ok t) ∧
    ∀ id, (Pass.infer id).result s = typeOf s.net.arena.nodes s.net.env id ∧
      (Pass.infer id).result s = (Pass.infer id).result s.forget := by
  have hw := hs.wellFormed
  refine ⟨hw.coherent.follows, fun id => ⟨?_, ?_⟩⟩
  · exact (Pass.Answers.infer id).result hw
  · exact ((Pass.Answers.infer id).result_forget hw).symm

/-- A neuron that gets a second source after its types were asked for, once in vain. -/
def rewired : Session := .ofRequests [.addLayer, .addNeuron 0 .input, .addNeuron 0 .input,
  .addLayer, .addNeuron 1 .hidden, .connect 0 2,
  .setForward 2 { above := [.input 2, .reduce .max 0, .literal (.bool true)],
                  last := .binary .add 1 2 },
  .infer 3, .connect 1 2, .infer 1, .check]

theorem rewired_coherent : rewired.Reachable ∧
    rewired.net.arena.types.toList = [(0, .vectorOf .real 2), (1, .real), (2, .bool)] ∧
    (Pass.infer 0).result rewired = .ok (.vectorOf .real 2) ∧
    (Pass.infer 3).result rewired = (Pass.infer 3).result rewired.forget := by
  have hs : rewired.Reachable := Session.reachable_ofRequests _
  obtain ⟨hknown, hinfer⟩ := remembered_types_coherent hs
  have htype : rewired.net.arena.types[0]? = some (.vectorOf .real 2) := by decide +kernel
  refine ⟨hs, by decide +kernel, ?_, (hinfer 3).2⟩
  rw [(hinfer 0).1, hknown 0 _ htype]

end Synapse
