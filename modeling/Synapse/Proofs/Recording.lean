import Mathlib.Tactic
import Synapse.Proofs.Execution
import Synapse.Proofs.Footprints

namespace Synapse

/-- A write that a run makes: a vector without elements, a variable as a whole, or one element. -/
inductive Write where
  | define (v : VarId)
  | whole (v : VarId)
  | element (v : VarId) (i : Int)
deriving DecidableEq

def Write.var : Write → VarId
  | define v | whole v | element v _ => v

/-- A run that keeps a log. -/
abbrev Recorded := EStateM Fault (List Write)

namespace Recorded

variable {α β : Type}

def note (ws : List Write) : Recorded Unit := fun log => .ok () (log ++ ws)

def of (r : Except Fault α) : Recorded α := fun log =>
  match r with
  | .ok a => .ok a log
  | .error e => .error e log

/-- The log of a run from the start, also if it stops at a fault. -/
def log (x : Recorded α) : List Write :=
  match x [] with
  | .ok _ log => log
  | .error _ log => log

/-- The run ends as `r` does. -/
def Tracks (x : Recorded α) (r : Except Fault α) : Prop :=
  ∀ log, ∃ log', x log = match r with
    | .ok a => .ok a log'
    | .error e => .error e log'

/-- Of the variables in `vs` the run writes just what `ws` says, in this order, and it gives a
result of which `Q` holds. If it stops at a fault, it has written a first part of that. -/
def Notes (x : Recorded α) (vs : List VarId) (ws : List Write) (Q : α → Prop) : Prop :=
  ∀ log, ∃ new, (∃ a, x log = .ok a (log ++ new) ∧ Q a ∧ new.filter (·.var ∈ vs) = ws) ∨
    ∃ e, x log = .error e (log ++ new) ∧ new.filter (·.var ∈ vs) <+: ws

theorem bind_ok {x : Recorded α} {f : α → Recorded β} {a : α} {l l' : List Write}
    (h : x l = .ok a l') : (x >>= f) l = f a l' := by
  change EStateM.bind x f l = _
  rw [EStateM.bind, h]

theorem bind_error {x : Recorded α} {f : α → Recorded β} {e : Fault} {l l' : List Write}
    (h : x l = .error e l') : (x >>= f) l = .error e l' := by
  change EStateM.bind x f l = _
  rw [EStateM.bind, h]

namespace Tracks

theorem pure (a : α) : Tracks (Pure.pure a) (.ok a) := fun log => ⟨log, rfl⟩

/-- What is noted has no influence. -/
theorem note {ws : List Write} {f : Unit → Recorded β} {r : Except Fault β} (h : Tracks (f ()) r) :
    Tracks (note ws >>= f) r := by
  intro log
  obtain ⟨log', hf⟩ := h (log ++ ws)
  exact ⟨log', (bind_ok rfl).trans hf⟩

theorem of (r : Except Fault α) : Tracks (of r) r := by
  intro log
  cases r <;> exact ⟨log, rfl⟩

theorem of_note (r : Except Fault α) (ws : List Write) :
    Tracks (Recorded.of r >>= fun a => Recorded.note ws >>= fun _ => Pure.pure a) r := by
  intro log
  cases r with
  | ok a => exact ⟨log ++ ws, rfl⟩
  | error e => exact ⟨log, rfl⟩

theorem bind {x : Recorded α} {r : Except Fault α} {f : α → Recorded β} {g : α → Except Fault β}
    (hx : Tracks x r) (hf : ∀ a, Tracks (f a) (g a)) : Tracks (x >>= f) (r >>= g) := by
  intro log
  obtain ⟨log', h⟩ := hx log
  cases r with
  | error e => exact ⟨log', bind_error h⟩
  | ok a =>
    rw [bind_ok h]
    exact hf a log'

theorem of_bind {γ : Type} {r : Except Fault α} {g : α → Except Fault β} {f : β → Recorded γ}
    {h : β → Except Fault γ} (hf : ∀ b, Tracks (f b) (h b)) :
    Tracks (Recorded.of (r >>= g) >>= f) (r >>= fun a => g a >>= h) := by
  rw [← bind_assoc]
  exact (of _).bind hf

theorem foldlM {f : β → α → Recorded β} {g : β → α → Except Fault β}
    (h : ∀ b a, Tracks (f b a) (g b a)) (xs : List α) (b : β) :
    Tracks (xs.foldlM f b) (xs.foldlM g b) := by
  induction xs generalizing b with
  | nil => exact pure b
  | cons x xs ih => exact (h b x).bind fun b => ih b

end Tracks

namespace Notes

variable {vs : List VarId}

theorem pure {a : α} {Q : α → Prop} (h : Q a) : Notes (Pure.pure a) vs [] Q :=
  fun _ => ⟨[], .inl ⟨a, by rw [List.append_nil]; rfl, h, rfl⟩⟩

theorem note (vs : List VarId) (ws : List Write) :
    Notes (note ws) vs (ws.filter (·.var ∈ vs)) fun _ => True :=
  fun _ => ⟨ws, .inl ⟨(), rfl, trivial, rfl⟩⟩

theorem note_all {ws : List Write} (h : ∀ w ∈ ws, w.var ∈ vs) :
    Notes (Recorded.note ws) vs ws fun _ => True := by
  have hnote := note vs ws
  rwa [List.filter_eq_self.2 fun w hw => decide_eq_true (h w hw)] at hnote

theorem note_nil {ws : List Write} (h : ∀ w ∈ ws, w.var ∉ vs) :
    Notes (Recorded.note ws) vs [] fun _ => True := by
  have hnote := note vs ws
  rwa [List.filter_eq_nil_iff.2 (by simpa using h)] at hnote

theorem of {r : Except Fault α} {Q : α → Prop} (h : ∀ a, r = .ok a → Q a) :
    Notes (of r) vs [] Q := by
  intro log
  refine ⟨[], ?_⟩
  rw [List.append_nil]
  cases r with
  | ok a => exact .inl ⟨a, rfl, h a rfl, rfl⟩
  | error e => exact .inr ⟨e, rfl, List.prefix_refl _⟩

theorem of_any (r : Except Fault α) : Notes (Recorded.of r) vs [] fun _ => True :=
  of fun _ _ => trivial

theorem bind {x : Recorded α} {f : α → Recorded β} {ws ws' : List Write} {Q : α → Prop}
    {R : β → Prop} (hx : Notes x vs ws Q) (hf : ∀ a, Q a → Notes (f a) vs ws' R) :
    Notes (x >>= f) vs (ws ++ ws') R := by
  intro log
  obtain ⟨new, ⟨a, hxa, hq, hnew⟩ | ⟨e, hxe, hnew⟩⟩ := hx log
  · obtain ⟨new', hrun⟩ := hf a hq (log ++ new)
    rw [List.append_assoc] at hrun
    refine ⟨new ++ new', ?_⟩
    rw [bind_ok hxa, List.filter_append, hnew]
    rcases hrun with ⟨b, hb, hr, hnew'⟩ | ⟨e, he, hnew'⟩
    · exact .inl ⟨b, hb, hr, by rw [hnew']⟩
    · exact .inr ⟨e, he, (List.prefix_append_right_inj _).2 hnew'⟩
  · exact ⟨new, .inr ⟨e, bind_error hxe, hnew.trans (List.prefix_append _ _)⟩⟩

/-- As `bind`, where the first part writes nothing in `vs`. -/
theorem step {x : Recorded α} {f : α → Recorded β} {ws : List Write} {Q : α → Prop} {R : β → Prop}
    (hx : Notes x vs [] Q) (hf : ∀ a, Q a → Notes (f a) vs ws R) : Notes (x >>= f) vs ws R :=
  hx.bind hf

/-- A fold writes what its rounds write, if each keeps `Q`. -/
theorem foldlM {f : β → α → Recorded β} {ws : α → List Write} {Q : β → Prop}
    (h : ∀ b a, Q b → Notes (f b a) vs (ws a) Q) (xs : List α) {b : β} (hb : Q b) :
    Notes (xs.foldlM f b) vs (xs.flatMap ws) Q := by
  induction xs generalizing b with
  | nil => exact pure hb
  | cons x xs ih => exact (h b x hb).bind fun b hb => ih hb

theorem imp {x : Recorded α} {ws : List Write} {Q R : α → Prop} (h : Notes x vs ws Q)
    (hQ : ∀ a, Q a → R a) : Notes x vs ws R := by
  intro log
  obtain ⟨new, ⟨a, hxa, hq, hnew⟩ | hfault⟩ := h log
  · exact ⟨new, .inl ⟨a, hxa, hQ a hq, hnew⟩⟩
  · exact ⟨new, .inr hfault⟩

theorem log_prefix {x : Recorded α} {ws : List Write} {Q : α → Prop} (h : Notes x vs ws Q) :
    x.log.filter (·.var ∈ vs) <+: ws := by
  obtain ⟨new, ⟨a, hx, _, hnew⟩ | ⟨e, hx, hnew⟩⟩ := h []
  · rw [log, hx, List.nil_append, hnew]
  · rw [log, hx, List.nil_append]
    exact hnew

theorem log_eq {x : Recorded α} {ws : List Write} {Q : α → Prop} (h : Notes x vs ws Q) {a : α}
    (ht : Tracks x (.ok a)) : x.log.filter (·.var ∈ vs) = ws := by
  obtain ⟨new, ⟨b, hx, _, hnew⟩ | ⟨e, hx, _⟩⟩ := h []
  · rw [log, hx, List.nil_append, hnew]
  · obtain ⟨log', hx'⟩ := ht []
    rw [hx] at hx'
    cases hx'

end Notes

end Recorded

section

variable {S : Type} {k : Kernel} {I : Interpretation S}

/-- The write that an assignment to a formula makes. -/
def Formula.written (k : Kernel) (I : Interpretation S) (σ : Store S) : Formula → List Write
  | var v => [.whole v]
  | element v i =>
    match i.eval k I σ >>= Datum.index with
    | .ok j => [.element v j]
    | .error _ => []
  | _ => []

mutual

/-- Runs a statement and records its writes. -/
def Code.record (k : Kernel) (I : Interpretation S) : Code → Store S → Recorded (Store S)
  | define v, σ => do
    .note [.define v]
    return σ.set v (.vector fun _ => none)
  | assign lhs rhs, σ => do
    let τ ← .of (rhs.eval k I σ >>= fun d => lhs.assign k I σ d)
    .note (lhs.written k I σ)
    return τ
  | loop index start stop body, σ => do
    let a ← .of (start.eval k I σ >>= Datum.index)
    let b ← .of (stop.eval k I σ >>= Datum.index)
    (List.range (b - a).toNat).foldlM (fun σ (i : Nat) => do
      .note [.whole index]
      let σ' ← records k I body (σ.set index (.scalar (I.intWord (a + i))))
      return σ'.leave σ) σ

def Code.records (k : Kernel) (I : Interpretation S) :
    List Code → Store S → Recorded (Store S)
  | [], σ => return σ
  | c :: rest, σ => do records k I rest (← c.record k I σ)

end

namespace Code

mutual

/-- A recorded run ends as the run does. -/
theorem tracks_record (c : Code) (σ : Store S) : (c.record k I σ).Tracks (c.exec k I σ) := by
  cases c with
  | define v =>
    rw [record, exec]
    exact .note (.pure _)
  | assign lhs rhs =>
    rw [record, exec]
    exact .of_note _ _
  | loop index start stop body =>
    rw [record, exec]
    refine .of_bind fun a => .of_bind fun b => .foldlM (fun σ i => .note ?_) _ σ
    exact (tracks_records body _).bind fun σ' => .pure _

theorem tracks_records (cs : List Code) (σ : Store S) :
    (records k I cs σ).Tracks (execs k I cs σ) := by
  cases cs with
  | nil =>
    rw [records, execs]
    exact .pure σ
  | cons c rest =>
    rw [records, execs]
    exact (tracks_record c σ).bind fun τ => tracks_records rest τ

end

end Code

theorem Formula.assign_other {φ : Formula} {σ τ : Store S} {d : Datum (Word S)}
    (h : φ.assign k I σ d = .ok τ) {v : VarId} (hv : φ.target? ≠ some v) : τ v = σ v := by
  cases φ with
  | var w =>
    have hne : v ≠ w := fun h => hv (congrArg some h.symm)
    cases d <;> (obtain rfl := Except.ok.inj h; exact Store.set_other _ _ hne)
  | element w i =>
    have hne : v ≠ w := fun h => hv (congrArg some h.symm)
    obtain ⟨x, _, h⟩ := bind_eq_ok.1 h
    obtain ⟨e, _, h⟩ := bind_eq_ok.1 h
    obtain ⟨j, _, h⟩ := bind_eq_ok.1 h
    obtain ⟨slots, _, h⟩ := bind_eq_ok.1 h
    obtain rfl := Except.ok.inj h
    exact Store.set_other _ _ hne
  | _ => cases h

theorem Formula.written_var {φ : Formula} {σ : Store S} {w : Write} (h : w ∈ φ.written k I σ) :
    φ.target? = some w.var := by
  cases φ with
  | var v =>
    rw [List.mem_singleton.1 h]
    rfl
  | element v i =>
    rw [written] at h
    split at h
    · rw [List.mem_singleton.1 h]
      rfl
    · cases h
  | _ => cases h

namespace Code

variable {vs : List VarId}

mutual

/-- Code that writes none of the variables in `vs` notes nothing about them, and leaves all that it
does not write as it is. -/
theorem notes_record (c : Code) (h : ∀ v ∈ c.writes, v ∉ vs) (σ : Store S) :
    (c.record k I σ).Notes vs [] fun τ => ∀ v, v ∉ c.writes → τ v = σ v := by
  cases c with
  | define w =>
    rw [record]
    refine (Recorded.Notes.note_nil ?_).step fun _ _ => .pure fun v hv => ?_
    · simpa [writes, Write.var] using h
    · exact Store.set_other _ _ (by simpa [writes] using hv)
  | assign lhs rhs =>
    rw [record]
    refine (Recorded.Notes.of (Q := fun τ => ∀ v, v ∉ (assign lhs rhs).writes → τ v = σ v)
      fun τ hτ v hv => ?_).step fun τ hτ => ?_
    · obtain ⟨d, _, hd⟩ := bind_eq_ok.1 hτ
      exact Formula.assign_other hd (by simpa [writes] using hv)
    · refine (Recorded.Notes.note_nil fun w hw => ?_).step fun _ _ => .pure hτ
      exact h _ (by simp [writes, Formula.written_var hw])
  | loop index start stop body =>
    rw [record]
    refine (Recorded.Notes.of_any _).step fun a _ => (Recorded.Notes.of_any _).step fun b _ => ?_
    -- The invariant is about what the whole loop does not write, not only the round.
    have hround : ∀ (τ : Store S) (i : Nat),
        (∀ v, v ∉ (loop index start stop body).writes → τ v = σ v) →
        Recorded.Notes (do
            Recorded.note [.whole index]
            let τ' ← records k I body (τ.set index (.scalar (I.intWord (a + i))))
            return τ'.leave τ) vs []
          fun τ' => ∀ v, v ∉ (loop index start stop body).writes → τ' v = σ v := by
      intro τ i hτ
      refine (Recorded.Notes.note_nil ?_).step fun _ _ => ?_
      · simpa [Write.var] using h index (by simp [writes])
      · refine (notes_records body (fun v hv => h v (by simp [writes, hv])) _).step
          fun τ' hτ' => .pure fun v hv => ?_
        obtain ⟨hne, hbody⟩ : v ≠ index ∧ v ∉ allWrites body := by simpa [writes] using hv
        rw [Store.leave, hτ' v hbody, Store.set_other _ _ hne, hτ v hv]
        cases σ v <;> rfl
    have hrounds := Recorded.Notes.foldlM hround (List.range (b - a).toNat)
      (fun (v : VarId) _ => rfl)
    rwa [List.flatMap_eq_nil_iff.2 fun _ _ => rfl] at hrounds

theorem notes_records (cs : List Code) (h : ∀ v ∈ allWrites cs, v ∉ vs) (σ : Store S) :
    (records k I cs σ).Notes vs [] fun τ => ∀ v, v ∉ allWrites cs → τ v = σ v := by
  cases cs with
  | nil =>
    rw [records]
    exact .pure fun v _ => rfl
  | cons c rest =>
    rw [records]
    simp only [allWrites, List.mem_append, or_imp, forall_and, not_or] at h ⊢
    refine (notes_record c h.1 σ).step fun τ hτ => ?_
    exact (notes_records rest h.2 τ).imp fun τ' hτ' v hv => (hτ' v hv.2).trans (hτ v hv.1)

end

end Code

end

end Synapse
