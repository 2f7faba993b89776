import Mathlib.Tactic
import Synapse.Proofs.Building
import Synapse.Proofs.Scopes

namespace Synapse

/-- What an execution does, one thing at a time. -/
inductive Action where
  | eval (id : NodeId)
  | define (v : VarId)
  | assign (lhs : NodeId)
  /-- Begins a round of a loop. -/
  | enter (index : VarId)
  /-- Ends the round that was begun last. -/
  | leave

/-- The indices of the loops that are running after an action, from those before it. -/
def Action.scope : Action → List VarId → List VarId
  | enter index, running => index :: running
  | leave, running => running.tail
  | _, running => running

/-- The actions of one round of a loop. -/
def Action.round (index : VarId) (r : List Action) : List Action := .enter index :: r ++ [.leave]

namespace Kernel

/-- Kernels that are put together piece by piece. A node names nodes that are there; statements may
be any. -/
inductive Made : Kernel → Prop
  | new (input output : Ty) : Made (.new input output)
  | declare {k : Kernel} (name : String) (ty : Ty) (h : Made k) : Made (k.declare name ty).1
  | pushNode {k : Kernel} {n : Node} (hn : k.arena.admits n = true) (h : Made k) :
    Made (k.pushNode n).1
  | addTable {k : Kernel} (elem : Ty) (first : Nat) (h : Made k) : Made (k.addTable elem first).1
  | addEntry {k k' : Kernel} {id : TableId} {c : Literal} {slot : Nat}
    (he : k.addEntry id c = .ok (k', slot)) (h : Made k) : Made k'
  | pushStmt {k : Kernel} (s : Stmt) (h : Made k) : Made (k.pushStmt s)
  /-- Types were asked for. -/
  | learn {k : Kernel} (types : Types) (h : Made k) :
    Made { k with arena := { k.arena with types } }

/-- Evaluating the expression reads the variable. -/
inductive Reads (k : Kernel) : NodeId → VarId → Prop
  | here {id : NodeId} {n : Node} {v : VarId} (hn : k.arena.nodes[id]? = some n)
    (hv : readOf n = some v) : Reads k id v
  | operand {id x : NodeId} {n : Node} {v : VarId} (hn : k.arena.nodes[id]? = some n)
    (hx : x ∈ n.operands) (hv : Reads k x v) : Reads k id v

/-- The index that is evaluated for an assignment to an element. -/
def index? (k : Kernel) (lhs : NodeId) : Option NodeId :=
  match k.arena.nodes[lhs]? with
  | some (.element _ x) => some x
  | _ => none

/-- The variable that gets a value, wholly or at an index. -/
def gives? (k : Kernel) : Action → Option VarId
  | .define v => some v
  | .assign lhs => k.arena.nodes[lhs]?.bind readOf
  | _ => none

/-- The executions of some statements. A loop evaluates its bounds and then runs any number of
rounds, each an execution of its body. -/
inductive Trace (k : Kernel) : List Stmt → List Action → Prop
  | nil : Trace k [] []
  | define {v : VarId} {rest : List Stmt} {t : List Action} (ht : Trace k rest t) :
    Trace k (.define v :: rest) (.define v :: t)
  | assign {lhs rhs : NodeId} {rest : List Stmt} {t : List Action} (ht : Trace k rest t) :
    Trace k (.assign lhs rhs :: rest)
      ((rhs :: (k.index? lhs).toList).map .eval ++ .assign lhs :: t)
  | loop {index : VarId} {start stop : NodeId} {body rest : List Stmt} {t : List Action}
    (rounds : List (List Action)) (hr : ∀ r ∈ rounds, Trace k body r) (ht : Trace k rest t) :
    Trace k (.loop index start stop body :: rest)
      ([start, stop].map .eval ++ (rounds.flatMap (Action.round index) ++ t))

/-- The indices of the loops that are running after some actions, the innermost first. -/
def running (h : List Action) : List VarId := h.foldl (fun loops a => a.scope loops) []

/-- The variable has a value after some actions: it is the input, the index of a running loop, or
was defined or assigned before. -/
def Known (k : Kernel) (h : List Action) (v : VarId) : Prop :=
  v = inputVar ∨ v ∈ running h ∨ ∃ a ∈ h, k.gives? a = some v

/-- The action reads only variables that are `known`, and assigns only to variables and elements. -/
def Safe (k : Kernel) (known : VarId → Prop) : Action → Prop
  | .eval id => ∀ v, k.Reads id v → known v
  | .assign lhs => ∃ n, k.arena.nodes[lhs]? = some n ∧ n.isTarget = true
  | _ => True

/-- After the actions `h`, each further one is safe where it comes. -/
def Sound (k : Kernel) (h : List Action) : List Action → Prop
  | [] => True
  | a :: t => k.Safe (k.Known h) a ∧ k.Sound (h ++ [a]) t

theorem Made.ordered {k : Kernel} (h : k.Made) : Arena.Ordered k.arena.nodes := by
  induction h with
  | new input output =>
    intro id n hn
    cases hn
  | @pushNode k n hn _ ih =>
    intro id m hm x hx
    rcases of_push_some hm with hm | ⟨rfl, rfl⟩
    · exact ih id m hm x hx
    · simpa using List.all_eq_true.1 hn x hx
  | addEntry he _ ih =>
    obtain ⟨t, _, he⟩ := bind_eq_ok.1 he
    obtain ⟨t', _, he⟩ := bind_eq_ok.1 he
    obtain rfl := (Prod.mk.inj (Except.ok.inj he)).1
    exact ih
  | _ => assumption

section

variable {k : Kernel} {h t u : List Action} {v : VarId} {defined : List VarId}

theorem reads_iff (ho : Arena.Ordered k.arena.nodes) {id : NodeId} :
    k.Reads id v ↔ ∃ x, (Arena.dag k.arena.nodes).Reaches id x ∧
      k.arena.nodes[x]?.bind readOf = some v := by
  constructor
  · intro h
    induction h with
    | @here id n v hn hv => exact ⟨id, .refl _ id, by rw [hn]; exact hv⟩
    | @operand id x n v hn hx _ ih =>
      obtain ⟨y, hy, hv⟩ := ih
      have hop : x ∈ Arena.operandsOf k.arena.nodes id := by rwa [Arena.operandsOf_eq ho hn]
      exact ⟨y, (Dag.Reaches.operand hop).trans hy, hv⟩
  · rintro ⟨x, hx, hv⟩
    induction hx using Relation.ReflTransGen.head_induction_on with
    | refl =>
      obtain ⟨n, hn, hv⟩ := Option.bind_eq_some_iff.1 hv
      exact .here hn hv
    | @head y z hz _ ih =>
      have hz : z ∈ Arena.operandsOf k.arena.nodes y := hz
      cases hn : k.arena.nodes[y]? with
      | none => simp [Arena.operandsOf_none hn] at hz
      | some n => exact .operand hn (Arena.operandsOf_eq ho hn ▸ hz) ih

theorem failWith_ne_ok {α β : Type} {x : Except Failure α} {e : α → DefinitionError} {b : β} :
    (x >>= fun a => failWith (e a)) ≠ .ok b := by
  intro h
  obtain ⟨a, _, h⟩ := bind_eq_ok.1 h
  cases h

theorem definedAt_eq_ok_iff {id : NodeId} :
    k.definedAt defined id = .ok () ↔
      ∀ v, k.arena.nodes[id]?.bind readOf = some v → v ∈ defined := by
  unfold definedAt
  cases k.arena.nodes[id]?.bind readOf with
  | none => simp
  | some v =>
    by_cases hv : v ∈ defined
    · simp [hv]
    · simp [hv, failWith_ne_ok]

/-- The check of an expression passes exactly if all that it reads is defined. -/
theorem readsDefined_eq_ok_iff (ho : Arena.Ordered k.arena.nodes) {id : NodeId} :
    k.readsDefined defined id = .ok () ↔ k.Safe (· ∈ defined) (.eval id) := by
  simp only [readsDefined, forM_eq_ok, Dag.mem_preorder, definedAt_eq_ok_iff, Safe, reads_iff ho]
  exact ⟨fun h v ⟨x, hx, hv⟩ => h x hx v hv, fun h x hx v hv => h v ⟨x, hx, hv⟩⟩

theorem safe_assign_iff {known : VarId → Prop} {lhs : NodeId} :
    k.Safe known (.assign lhs) ↔ ∃ v, k.gives? (.assign lhs) = some v := by
  unfold Safe gives?
  cases hn : k.arena.nodes[lhs]? with
  | none => simp [hn]
  | some n => cases n <;> simp [hn, Node.isTarget, readOf]

theorem targetOf_eq_ok_iff (ho : Arena.Ordered k.arena.nodes) {lhs : NodeId} :
    k.targetOf defined lhs = .ok v ↔
      (∀ id ∈ (k.index? lhs).toList, k.Safe (· ∈ defined) (.eval id)) ∧
      k.gives? (.assign lhs) = some v := by
  unfold targetOf index? gives?
  cases hn : k.arena.nodes[lhs]? with
  | none => simp [hn, failWith_ne_ok]
  | some n =>
    cases n with
    | element w x =>
      change (k.readsDefined defined x >>= fun _ => .ok w) = _ ↔ _
      simp [hn, bind_eq_ok, readOf, readsDefined_eq_ok_iff ho]
    | _ => simp [hn, failWith_ne_ok, readOf]

/-- An assignment passes exactly if what it evaluates is safe, and defines the variable that it
gives a value to. -/
theorem defineStmt_assign_eq_ok (ho : Arena.Ordered k.arena.nodes) {lhs rhs : NodeId}
    {d : List VarId} : k.defineStmt defined (.assign lhs rhs) = .ok d ↔
      (∀ id ∈ rhs :: (k.index? lhs).toList, k.Safe (· ∈ defined) (.eval id)) ∧
      ∃ v, k.gives? (.assign lhs) = some v ∧ d = v :: defined := by
  rw [defineStmt, bind_eq_ok, List.forall_mem_cons, ← readsDefined_eq_ok_iff ho, and_assoc]
  refine ⟨fun ⟨_, hrhs, h⟩ => ?_, fun ⟨hrhs, hindex, v, hv, hd⟩ => ⟨(), hrhs, ?_⟩⟩
  · obtain ⟨v, hv, hd⟩ := bind_eq_ok.1 h
    obtain ⟨hindex, hv⟩ := (targetOf_eq_ok_iff ho).1 hv
    exact ⟨hrhs, hindex, v, hv, (Except.ok.inj hd).symm⟩
  · exact bind_eq_ok.2 ⟨v, (targetOf_eq_ok_iff ho).2 ⟨hindex, hv⟩, congrArg _ hd.symm⟩

theorem defineStmt_loop_eq_ok (ho : Arena.Ordered k.arena.nodes) {index : VarId}
    {start stop : NodeId} {body : List Stmt} {d : List VarId} :
    k.defineStmt defined (.loop index start stop body) = .ok d ↔
      (∀ id ∈ [start, stop], k.Safe (· ∈ defined) (.eval id)) ∧
      (∃ d', k.defineBody (index :: defined) body = .ok d') ∧ d = defined := by
  simp only [defineStmt, bind_eq_ok, List.forall_mem_cons, ← readsDefined_eq_ok_iff ho]
  constructor
  · rintro ⟨_, hstart, _, hstop, d', hbody, hd⟩
    exact ⟨⟨hstart, hstop, by simp⟩, ⟨d', hbody⟩, (Except.ok.inj hd).symm⟩
  · rintro ⟨⟨hstart, hstop, _⟩, ⟨d', hbody⟩, rfl⟩
    exact ⟨(), hstart, (), hstop, d', hbody, rfl⟩

theorem Safe.mono {known known' : VarId → Prop} {a : Action} (hs : k.Safe known a)
    (hk : ∀ v, known v → known' v) : k.Safe known' a := by
  cases a with
  | eval id => exact fun v hv => hk v (hs v hv)
  | assign lhs => exact hs
  | _ => trivial

theorem sound_append : k.Sound h (t ++ u) ↔ k.Sound h t ∧ k.Sound (h ++ t) u := by
  induction t generalizing h with
  | nil => simp [Sound]
  | cons a t ih => simp [Sound, ih, and_assoc]

/-- Actions that end the rounds they begin only add what they give a value to. -/
theorem known_append (hr : running (h ++ t) = running h) :
    k.Known (h ++ t) v ↔ k.Known h v ∨ ∃ a ∈ t, k.gives? a = some v := by
  simp only [Known, hr, List.mem_append, or_and_right, exists_or, or_assoc]

theorem known_give {a : Action} (ha : ∀ loops, a.scope loops = loops)
    (hv : k.gives? a = some v) {w : VarId} :
    k.Known (h ++ [a]) w ↔ w = v ∨ k.Known h w := by
  have hr : running (h ++ [a]) = running h := by simp [running, ha]
  rw [known_append hr]
  simp [hv, or_comm, eq_comm]

theorem running_enter {index : VarId} : running (h ++ [.enter index]) = index :: running h := by
  simp [running, Action.scope]

theorem known_enter {index : VarId} :
    k.Known (h ++ [.enter index]) v ↔ v = index ∨ k.Known h v := by
  have hgives : (∃ a ∈ h ++ [.enter index], k.gives? a = some v) ↔
      ∃ a ∈ h, k.gives? a = some v := by
    simp [gives?]
  rw [Known, Known, running_enter, hgives, List.mem_cons]
  tauto

theorem running_evals {ids : List NodeId} : running (h ++ ids.map .eval) = running h := by
  induction ids generalizing h with
  | nil => simp
  | cons id ids ih =>
    rw [List.map_cons, List.append_cons, ih]
    simp [running, Action.scope]

/-- Evaluation gives no variable a value. -/
theorem known_evals {ids : List NodeId} :
    k.Known (h ++ ids.map .eval) v ↔ k.Known h v := by
  simp [known_append running_evals, gives?]

theorem sound_evals {ids : List NodeId} :
    k.Sound h (ids.map .eval) ↔ ∀ id ∈ ids, k.Safe (k.Known h) (.eval id) := by
  induction ids generalizing h with
  | nil => simp [Sound]
  | cons id ids ih =>
    have hknown : k.Known (h ++ [id].map .eval) = k.Known h := funext fun v => propext known_evals
    rw [List.map_cons, Sound, ih, List.forall_mem_cons]
    exact hknown ▸ .rfl

theorem running_round {index : VarId} (hr : ∀ h, running (h ++ t) = running h) :
    running (h ++ Action.round index t) = running h := by
  have hbody := hr (h ++ [.enter index])
  rw [running_enter] at hbody
  rw [Action.round, ← List.append_assoc, running, List.foldl_append, List.append_cons]
  exact congrArg List.tail hbody

theorem running_rounds {index : VarId} {rounds : List (List Action)}
    (hr : ∀ r ∈ rounds, ∀ h, running (h ++ r) = running h) :
    running (h ++ rounds.flatMap (Action.round index)) = running h := by
  induction rounds generalizing h with
  | nil => simp
  | cons r rounds ih =>
    obtain ⟨hr, hrest⟩ := List.forall_mem_cons.1 hr
    rw [List.flatMap_cons, ← List.append_assoc, ih hrest, running_round hr]

/-- An execution ends the rounds that it begins. -/
theorem Trace.running_eq {ss : List Stmt} (ht : k.Trace ss t) (h : List Action) :
    running (h ++ t) = running h := by
  induction ht generalizing h with
  | nil => simp
  | define _ ih =>
    rw [List.append_cons, ih]
    simp [running, Action.scope]
  | assign _ ih =>
    rw [← List.append_assoc, List.append_cons, ih, running, List.foldl_append]
    exact running_evals
  | loop rounds _ _ ihr ih =>
    rw [← List.append_assoc, ← List.append_assoc, ih, running_rounds ihr, running_evals]

/-- Rounds are sound if the body is, from any history that knows the index and what was known
before the loop. -/
theorem sound_rounds {index : VarId} {rounds : List (List Action)}
    (hr : ∀ r ∈ rounds, ∀ h, running (h ++ r) = running h)
    (hs : ∀ r ∈ rounds, ∀ h, (∀ v ∈ index :: defined, k.Known h v) → k.Sound h r)
    (hd : ∀ v ∈ defined, k.Known h v) : k.Sound h (rounds.flatMap (Action.round index)) := by
  induction rounds generalizing h with
  | nil => trivial
  | cons r rounds ih =>
    obtain ⟨hr, hrrest⟩ := List.forall_mem_cons.1 hr
    obtain ⟨hs, hsrest⟩ := List.forall_mem_cons.1 hs
    have henter : ∀ v ∈ index :: defined, k.Known (h ++ [.enter index]) v := by
      intro v hv
      exact known_enter.2 ((List.mem_cons.1 hv).imp_right (hd v))
    have hafter : ∀ v ∈ defined, k.Known (h ++ Action.round index r) v :=
      fun v hv => (known_append (running_round hr)).2 (.inl (hd v hv))
    rw [List.flatMap_cons, sound_append]
    refine ⟨⟨trivial, ?_⟩, ih hrrest hsrest hafter⟩
    exact sound_append.2 ⟨hs _ henter, trivial, trivial⟩

/-- What the check accepts is sound from any history that knows what is defined. -/
theorem Trace.sound (ho : Arena.Ordered k.arena.nodes) {ss : List Stmt} (ht : k.Trace ss t)
    {d : List VarId} (hc : k.defineBody defined ss = .ok d) (hd : ∀ v ∈ defined, k.Known h v) :
    k.Sound h t := by
  induction ht generalizing h defined d with
  | nil => trivial
  | @define v rest t _ ih =>
    obtain ⟨d', hv, hrest⟩ := bind_eq_ok.1 hc
    obtain rfl : v :: defined = d' := by simpa [defineStmt] using hv
    refine ⟨trivial, ih hrest fun w hw => (known_give (fun _ => rfl) rfl).2 ?_⟩
    exact (List.mem_cons.1 hw).imp_right (hd w)
  | @assign lhs rhs rest t _ ih =>
    obtain ⟨d', hassign, hrest⟩ := bind_eq_ok.1 hc
    obtain ⟨hevals, v, hv, rfl⟩ := (defineStmt_assign_eq_ok ho).1 hassign
    have hbefore : ∀ w ∈ defined, k.Known (h ++ (rhs :: (k.index? lhs).toList).map .eval) w :=
      fun w hw => known_evals.2 (hd w hw)
    rw [sound_append, sound_evals]
    refine ⟨fun id hid => (hevals id hid).mono hd, safe_assign_iff.2 ⟨v, hv⟩, ?_⟩
    refine ih hrest fun w hw => (known_give (fun _ => rfl) hv).2 ?_
    exact (List.mem_cons.1 hw).imp_right (hbefore w)
  | @loop index start stop body rest t rounds hrounds _ ihr ih =>
    obtain ⟨d', hloop, hrest⟩ := bind_eq_ok.1 hc
    obtain ⟨hevals, ⟨db, hbody⟩, hd'⟩ := (defineStmt_loop_eq_ok ho).1 hloop
    rw [hd'] at hrest
    have hbalanced : ∀ r ∈ rounds, ∀ h, running (h ++ r) = running h :=
      fun r hr => (hrounds r hr).running_eq
    have hbefore : ∀ v ∈ defined, k.Known (h ++ [start, stop].map .eval) v :=
      fun v hv => known_evals.2 (hd v hv)
    rw [sound_append, sound_evals, sound_append]
    refine ⟨fun id hid => (hevals id hid).mono hd, ?_, ih hrest fun v hv => ?_⟩
    · exact sound_rounds hbalanced (fun r hr h => ihr r hr hbody) hbefore
    · exact (known_append (running_rounds hbalanced)).2 (.inl (hbefore v hv))

/-- Statements have an execution, for instance the one that skips their loops. -/
theorem exists_trace (ss : List Stmt) : ∃ t, k.Trace ss t := by
  induction ss with
  | nil => exact ⟨_, .nil⟩
  | cons s rest ih =>
    obtain ⟨t, ht⟩ := ih
    cases s with
    | define v => exact ⟨_, .define ht⟩
    | assign lhs rhs => exact ⟨_, .assign ht⟩
    | loop index start stop body => exact ⟨_, .loop [] (by simp) ht⟩

/-- An assignment that is sound after a history passes the check. -/
theorem defineStmt_assign_of_sound (ho : Arena.Ordered k.arena.nodes) {lhs rhs : NodeId}
    (hd : ∀ v, k.Known h v → v ∈ defined)
    (hs : k.Sound h ((rhs :: (k.index? lhs).toList).map .eval ++ .assign lhs :: t)) :
    ∃ v, k.gives? (.assign lhs) = some v ∧
      k.defineStmt defined (.assign lhs rhs) = .ok (v :: defined) := by
  obtain ⟨hevals, hassign, _⟩ := sound_append.1 hs
  obtain ⟨v, hv⟩ := safe_assign_iff.1 hassign
  have hreads := fun id hid => (sound_evals.1 hevals id hid).mono hd
  exact ⟨v, hv, (defineStmt_assign_eq_ok ho).2 ⟨hreads, v, hv, rfl⟩⟩

/-- The check accepts statements of which every execution is sound, from a history that knows
nothing else than what is defined. -/
theorem defineBody_of_sound (ho : Arena.Ordered k.arena.nodes) (ss : List Stmt)
    {h : List Action} {defined : List VarId} (hd : ∀ v, k.Known h v → v ∈ defined)
    (hs : ∀ t, k.Trace ss t → k.Sound h t) : ∃ d, k.defineBody defined ss = .ok d := by
  cases ss with
  | nil => exact ⟨defined, by rw [defineBody]⟩
  | cons s rest =>
    cases s with
    | define v =>
      have hknown : ∀ w, k.Known (h ++ [.define v]) w → w ∈ v :: defined := by
        intro w hw
        exact List.mem_cons.2 (((known_give (fun _ => rfl) rfl).1 hw).imp_right (hd w))
      obtain ⟨d, hrest⟩ := defineBody_of_sound ho rest hknown fun t ht => (hs _ (.define ht)).2
      exact ⟨d, bind_eq_ok.2 ⟨_, by rw [defineStmt], hrest⟩⟩
    | assign lhs rhs =>
      obtain ⟨t, ht⟩ := exists_trace rest
      obtain ⟨v, hv, hstmt⟩ := defineStmt_assign_of_sound ho hd (hs _ (.assign ht))
      have hknown : ∀ w, k.Known (h ++ (rhs :: (k.index? lhs).toList).map .eval ++ [.assign lhs]) w →
          w ∈ v :: defined := by
        intro w hw
        refine List.mem_cons.2 (((known_give (fun _ => rfl) hv).1 hw).imp_right fun hw => ?_)
        exact hd w (known_evals.1 hw)
      obtain ⟨d, hrest⟩ := defineBody_of_sound ho rest hknown fun t ht =>
        (sound_append.1 (hs _ (.assign ht))).2.2
      exact ⟨d, bind_eq_ok.2 ⟨_, hstmt, hrest⟩⟩
    | loop index start stop body =>
      obtain ⟨t, ht⟩ := exists_trace rest
      have hentry : ∀ w, k.Known (h ++ [start, stop].map .eval) w → w ∈ defined :=
        fun w hw => hd w (known_evals.1 hw)
      have hevals := (sound_append.1 (hs _ (.loop [] (by simp) ht))).1
      -- A first round shows that the body is sound, and no round that the rest is.
      have hbody : ∃ d, k.defineBody (index :: defined) body = .ok d := by
        refine defineBody_of_sound ho body (h := h ++ [start, stop].map .eval ++ [.enter index]) ?_ ?_
        · intro w hw
          exact List.mem_cons.2 ((known_enter.1 hw).imp_right (hentry w))
        · intro r hr
          have hround := (sound_append.1 (hs _ (.loop [r] (by simpa using hr) ht))).2
          rw [List.flatMap_cons, List.append_assoc, sound_append] at hround
          exact (sound_append.1 hround.1.2).1
      have hstmt : k.defineStmt defined (.loop index start stop body) = .ok defined :=
        (defineStmt_loop_eq_ok ho).2
          ⟨fun id hid => (sound_evals.1 hevals id hid).mono hd, hbody, rfl⟩
      obtain ⟨d, hrest⟩ := defineBody_of_sound ho rest hentry fun t ht =>
        (sound_append.1 (hs _ (.loop [] (by simp) ht))).2
      exact ⟨d, bind_eq_ok.2 ⟨_, hstmt, hrest⟩⟩

theorem checkDefinitions_eq_ok_iff : k.checkDefinitions = .ok () ↔
    ∃ d, k.defineBody [inputVar] k.body = .ok d := by
  rw [checkDefinitions, bind_eq_ok]
  constructor
  · rintro ⟨d, hd, _⟩
    exact ⟨d, hd⟩
  · rintro ⟨d, hd⟩
    exact ⟨d, hd, rfl⟩

end

end Kernel

/-- The check of definitions accepts a kernel exactly if each execution, however many rounds its
loops run, reads only variables that have a value where it reads them, and assigns only to variables
and their elements. -/
theorem accepted_iff_executions_sound {k : Kernel} (hm : k.Made) :
    k.checkDefinitions = .ok () ↔ ∀ t, k.Trace k.body t → k.Sound [] t := by
  have hstart : ∀ v, k.Known [] v ↔ v ∈ [Kernel.inputVar] := by
    simp [Kernel.Known, Kernel.running]
  rw [Kernel.checkDefinitions_eq_ok_iff]
  constructor
  · rintro ⟨d, hd⟩ t ht
    exact ht.sound hm.ordered hd fun v hv => (hstart v).2 hv
  · exact Kernel.defineBody_of_sound hm.ordered k.body fun v hv => (hstart v).1 hv

/-- Copies the input to the output through a temporary. -/
def copying : Kernel :=
  let k := Kernel.new (.vectorOf .real 2) (.vectorOf .real 2)
  let k := ((k.declare "t0" .real).1.declare "idx0" .int).1
  let k := ((k.pushNode (.literal (.int 0))).1.pushNode (.literal (.int 2))).1
  let k := ((k.pushNode (.var 3)).1.pushNode (.element Kernel.inputVar 2)).1
  let k := ((k.pushNode (.var 2)).1.pushNode (.element Kernel.outputVar 2)).1
  k.pushStmt (.loop 3 0 1 [.assign 4 3, .assign 5 4])

theorem copying_made : copying.Made := by
  refine .pushStmt _ (.pushNode rfl (.pushNode rfl (.pushNode rfl (.pushNode rfl ?_))))
  exact .pushNode rfl (.pushNode rfl (.declare _ _ (.declare _ _ (.new _ _))))

/-- Reads the temporary of the copy once more after the loop. -/
def escaping : Kernel := copying.pushStmt (.assign 4 4)

/-- Two rounds of the copy are sound. After a loop that runs no round, its temporary has no
value. -/
theorem copying_sound_escaping_unsound :
    copying.Sound [] [.eval 0, .eval 1,
      .enter 3, .eval 3, .assign 4, .eval 4, .eval 2, .assign 5, .leave,
      .enter 3, .eval 3, .assign 4, .eval 4, .eval 2, .assign 5, .leave] ∧
    ∃ t, escaping.Trace escaping.body t ∧ ¬ escaping.Sound [] t := by
  have hround : copying.Trace [.assign 4 3, .assign 5 4]
      [.eval 3, .assign 4, .eval 4, .eval 2, .assign 5] := .assign (.assign .nil)
  have hrounds : ∀ r ∈ List.replicate 2 [.eval 3, .assign 4, .eval 4, .eval 2, .assign 5],
      copying.Trace [.assign 4 3, .assign 5 4] r := fun r hr => List.eq_of_mem_replicate hr ▸ hround
  have hsound := (accepted_iff_executions_sound copying_made).1 (by decide +kernel)
  have hfail : escaping.checkDefinitions ≠ .ok () := by decide +kernel
  refine ⟨hsound _ (.loop _ hrounds .nil), ?_⟩
  by_contra hall
  push Not at hall
  exact hfail ((accepted_iff_executions_sound (copying_made.pushStmt _)).2 hall)

end Synapse
