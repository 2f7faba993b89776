import Mathlib.Tactic
import Synapse.Expr.Typing
import Synapse.Proofs.Orders
import Synapse.Proofs.Sequences

namespace Synapse

/-- The outcome `r` of a computation that ends in the state `s`. -/
def outcome {σ α : Type} (r : Except Failure α) (s : σ) : EStateM.Result Failure σ α :=
  match r with
  | .ok a => .ok a s
  | .error e => .error e s

theorem orDefect_eq_ok {α : Type} {r : Except Defect α} {a : α} :
    (orDefect r : Except Failure α) = .ok a ↔ r = .ok a := by
  cases r <;> simp [orDefect, throw, throwThe, MonadExceptOf.throw, pure, Except.pure]

theorem orTypeError_eq_ok {α : Type} {r : Except TypeError α} {a : α} :
    (orTypeError r : Except Failure α) = .ok a ↔ r = .ok a := by
  cases r <;> simp [orTypeError, throw, throwThe, MonadExceptOf.throw, pure, Except.pure]

theorem bind_ne_defect {α β : Type} {x : Except Failure α} {f : α → Except Failure β} {d : Defect}
    (hx : x ≠ .error (.defect d)) (hf : ∀ a, f a ≠ .error (.defect d)) :
    (x >>= f) ≠ .error (.defect d) := by
  cases x with
  | error e => exact fun h => hx (by simpa [bind, Except.bind] using h)
  | ok a => exact hf a

theorem orTypeError_ne_defect {α : Type} (r : Except TypeError α) (d : Defect) :
    (orTypeError r : Except Failure α) ≠ .error (.defect d) := by
  cases r <;> intro h <;> cases h

/-- The type of a node by its rule, given the types of its operands. -/
def Node.typeBy {m : Type → Type} [Monad m] [MonadExceptOf Failure m] (env : Env)
    (of : NodeId → m Ty) : Node → m Ty
  | .literal c => pure c.ty
  | .unary _ x => of x
  | .binary _ l r => do
    let t ← of l
    let u ← of r
    orTypeError (Rule.join t u)
  | .input n => orDefect (env.input n)
  | .reduce _ x => do
    let t ← of x
    orTypeError (Rule.reduce t)
  | .activate name x => do
    let t ← of x
    orTypeError (Rule.activate name t)
  | .var v => orDefect (env.var v)
  | .element v x => do
    let t ← orDefect (env.var v)
    let s ← orTypeError (Rule.element t)
    let u ← of x
    orTypeError (Rule.index u)
    pure s
  | .entry s x => do
    let u ← of x
    orTypeError (Rule.index u)
    orDefect (env.table s)

/-- The type of a node by the rules alone, except that the types in `known` are taken for
granted. -/
def typeFrom (known : Types) (nodes : Array Node) (env : Env) (id : NodeId) : Except Failure Ty :=
  match known[id]? with
  | some t => .ok t
  | none =>
    match Arena.find? nodes id with
    | none => .error (.defect (.outOfRange nodes.size id))
    | some n => n.1.typeBy env fun x =>
      if x < id then typeFrom known nodes env x
      else .error (.defect (.outOfRange nodes.size id))
termination_by id

/-- The type of a node by the rules alone. -/
abbrev typeOf (nodes : Array Node) (env : Env) (id : NodeId) : Except Failure Ty :=
  typeFrom ∅ nodes env id

theorem Node.typeBy_congr {env : Env} {f g : NodeId → Except Failure Ty} {n : Node}
    (h : ∀ x ∈ n.operands, f x = g x) : n.typeBy env f = n.typeBy env g := by
  cases n <;> simp_all [Node.typeBy, Node.operands]

theorem typeFrom_known {known : Types} {nodes : Array Node} {env : Env} {id : NodeId} {t : Ty}
    (h : known[id]? = some t) : typeFrom known nodes env id = .ok t := by
  rw [typeFrom, h]

theorem typeFrom_unknown {known : Types} {nodes : Array Node} {env : Env} {id : NodeId}
    (h : known[id]? = none) :
    typeFrom known nodes env id = match Arena.find? nodes id with
      | none => .error (.defect (.outOfRange nodes.size id))
      | some n => n.1.typeBy env (typeFrom known nodes env) := by
  rw [typeFrom, h]
  cases Arena.find? nodes id with
  | none => rfl
  | some n => exact Node.typeBy_congr fun x hx => if_pos (n.2 x hx)

theorem typeOf_node {nodes : Array Node} (ho : Arena.Ordered nodes) {env : Env} {id : NodeId}
    {n : Node} (hn : nodes[id]? = some n) :
    typeOf nodes env id = n.typeBy env (typeOf nodes env) := by
  rw [typeOf, typeFrom_unknown (by simp), Arena.find?_eq ho hn]

theorem infer_eq (nodes : Array Node) (env : Env) (id : NodeId) :
    infer nodes env id = Typing.remember id (match Arena.find? nodes id with
      | none => throw (.defect (.outOfRange nodes.size id))
      | some n => n.1.typeBy env (infer nodes env)) := by
  rw [infer]
  cases Arena.find? nodes id with
  | none => rfl
  | some n =>
    obtain ⟨n, hn⟩ := n
    cases n <;> rfl

/-- What is remembered contains what was known at first, and follows from it by the rules. -/
structure Coherent (known : Types) (nodes : Array Node) (env : Env) (ts : Types) : Prop where
  knows : ∀ (id : NodeId) (t : Ty), known[id]? = some t → ts[id]? = some t
  follows : ∀ (id : NodeId) (t : Ty), ts[id]? = some t → typeFrom known nodes env id = .ok t

theorem coherent_self (known : Types) (nodes : Array Node) (env : Env) :
    Coherent known nodes env known :=
  ⟨fun _ _ h => h, fun _ _ h => typeFrom_known h⟩

theorem Coherent.insert {known ts : Types} {nodes : Array Node} {env : Env} {id : NodeId} {t : Ty}
    (h : Coherent known nodes env ts) (ht : typeFrom known nodes env id = .ok t) :
    Coherent known nodes env (ts.insert id t) := by
  constructor
  · intro j u hj
    rw [Std.TreeMap.getElem?_insert]
    split
    · rename_i he
      obtain rfl : id = j := by simpa using he
      rw [typeFrom_known hj] at ht
      simpa using ht.symm
    · exact h.knows j u hj
  · intro j u hj
    rw [Std.TreeMap.getElem?_insert] at hj
    split at hj
    · rename_i he
      obtain rfl : id = j := by simpa using he
      obtain rfl : t = u := by simpa using hj
      exact ht
    · exact h.follows j u hj

/-- A search for types has the outcome `r` whatever coherent types it starts from, and leaves
coherent types behind. -/
def Typing.Finds (known : Types) (nodes : Array Node) (env : Env) {α : Type} (x : Typing α)
    (r : Except Failure α) : Prop :=
  ∀ ts, Coherent known nodes env ts → ∃ ts', Coherent known nodes env ts' ∧ x ts = outcome r ts'

theorem Typing.get_bind {α : Type} (f : Types → Typing α) (ts : Types) :
    (get >>= f) ts = f ts ts := rfl

namespace Typing.Finds

variable {known : Types} {nodes : Array Node} {env : Env} {α β : Type}

theorem pure (a : α) : Finds known nodes env (pure a) (.ok a) :=
  fun ts h => ⟨ts, h, rfl⟩

theorem throw (e : Failure) : Finds known nodes env (throw e : Typing α) (.error e) :=
  fun ts h => ⟨ts, h, rfl⟩

theorem bind {x : Typing α} {r : Except Failure α} {f : α → Typing β} {g : α → Except Failure β}
    (hx : Finds known nodes env x r) (hf : ∀ a, r = .ok a → Finds known nodes env (f a) (g a)) :
    Finds known nodes env (x >>= f) (r >>= g) := by
  intro ts h
  obtain ⟨ts', h', hxs⟩ := hx ts h
  change ∃ ts'', _ ∧ EStateM.bind x f ts = _
  unfold EStateM.bind
  rw [hxs]
  cases r with
  | error e => exact ⟨ts', h', rfl⟩
  | ok a => exact hf a rfl ts' h'

theorem orTypeError (r : Except TypeError α) :
    Finds known nodes env (orTypeError r) (orTypeError r) := by
  cases r with
  | error e => exact Finds.throw _
  | ok a => exact Finds.pure a

theorem orDefect (r : Except Defect α) : Finds known nodes env (orDefect r) (orDefect r) := by
  cases r with
  | error e => exact Finds.throw _
  | ok a => exact Finds.pure a

theorem typeBy {n : Node} {of : NodeId → Typing Ty} {of' : NodeId → Except Failure Ty}
    (h : ∀ x ∈ n.operands, Finds known nodes env (of x) (of' x)) :
    Finds known nodes env (n.typeBy env of) (n.typeBy env of') := by
  cases n with
  | literal c => exact Finds.pure _
  | unary op x => exact h x (by simp [Node.operands])
  | binary op l r =>
    exact (h l (by simp [Node.operands])).bind fun t _ =>
      (h r (by simp [Node.operands])).bind fun u _ => Finds.orTypeError _
  | input n => exact Finds.orDefect _
  | reduce kind x => exact (h x (by simp [Node.operands])).bind fun t _ => Finds.orTypeError _
  | activate name x => exact (h x (by simp [Node.operands])).bind fun t _ => Finds.orTypeError _
  | var v => exact Finds.orDefect _
  | element v x =>
    exact (Finds.orDefect _).bind fun t _ => (Finds.orTypeError _).bind fun s _ =>
      (h x (by simp [Node.operands])).bind fun u _ =>
        (Finds.orTypeError _).bind fun _ _ => Finds.pure s
  | entry s x =>
    exact (h x (by simp [Node.operands])).bind fun u _ =>
      (Finds.orTypeError _).bind fun _ _ => Finds.orDefect _

theorem remember {id : NodeId} {find : Typing Ty} {r : Except Failure Ty}
    (h : Finds known nodes env find r)
    (hr : known[id]? = none → typeFrom known nodes env id = r) :
    Finds known nodes env (Typing.remember id find) (typeFrom known nodes env id) := by
  intro ts hts
  cases hid : ts[id]? with
  | some t =>
    refine ⟨ts, hts, ?_⟩
    rw [hts.follows id t hid, Typing.remember, Typing.get_bind, hid]
    rfl
  | none =>
    have hk : known[id]? = none := by
      cases hk : known[id]? with
      | none => rfl
      | some t => simpa [hid] using hts.knows id t hk
    obtain ⟨ts', hts', hf⟩ := h ts hts
    rw [hr hk, Typing.remember, Typing.get_bind, hid]
    change ∃ ts'', _ ∧ EStateM.bind find _ ts = _
    rw [EStateM.bind, hf]
    cases r with
    | error e => exact ⟨ts', hts', rfl⟩
    | ok t => exact ⟨ts'.insert id t, hts'.insert (hr hk), rfl⟩

end Typing.Finds

/-- Remembering does not change what inference finds. -/
theorem finds_infer (known : Types) (nodes : Array Node) (env : Env) (id : NodeId) :
    Typing.Finds known nodes env (infer nodes env id) (typeFrom known nodes env id) := by
  induction id using Nat.strong_induction_on with
  | _ id ih =>
  rw [infer_eq]
  refine Typing.Finds.remember (r := match Arena.find? nodes id with
    | none => .error (.defect (.outOfRange nodes.size id))
    | some n => n.1.typeBy env (typeFrom known nodes env)) ?_ typeFrom_unknown
  cases Arena.find? nodes id with
  | none => exact Typing.Finds.throw _
  | some n => exact Typing.Finds.typeBy fun x hx => ih x (n.2 x hx)

end Synapse
