import Mathlib.Tactic
import Synapse.Proofs.Recipes

namespace Synapse

namespace Pairing

/-- Some pair has a node in common with `ab`. -/
def Touches (p : Pairing) (ab : NodeId × NodeId) : Prop := ∃ x ∈ p, x.1 = ab.1 ∨ x.2 = ab.2

theorem OneToOne.image? {p : Pairing} (hp : p.OneToOne) {a b : NodeId} (h : (a, b) ∈ p) :
    p.image? a = some b := by
  cases hx : p.image? a with
  | none => exact absurd rfl (image?_eq_none hx _ h)
  | some x => exact congrArg some ((hp _ (mem_of_image? hx) _ h).1 rfl)

theorem OneToOne.preimage? {p : Pairing} (hp : p.OneToOne) {a b : NodeId} (h : (a, b) ∈ p) :
    p.preimage? b = some a := by
  cases hy : p.preimage? b with
  | none => exact absurd rfl (preimage?_eq_none hy _ h)
  | some y => exact congrArg some ((hp _ (mem_of_preimage? hy) _ h).2 rfl)

theorem touches_iff {p : Pairing} {a b : NodeId} :
    p.Touches (a, b) ↔ (∃ x, p.image? a = some x) ∨ ∃ y, p.preimage? b = some y := by
  constructor
  · rintro ⟨x, hx, rfl | rfl⟩
    · cases hi : p.image? x.1 with
      | none => exact absurd rfl (image?_eq_none hi x hx)
      | some y => exact .inl ⟨y, rfl⟩
    · cases hi : p.preimage? x.2 with
      | none => exact absurd rfl (preimage?_eq_none hi x hx)
      | some y => exact .inr ⟨y, rfl⟩
  · rintro (⟨x, hx⟩ | ⟨y, hy⟩)
    · exact ⟨_, mem_of_image? hx, .inl rfl⟩
    · exact ⟨_, mem_of_preimage? hy, .inr rfl⟩

theorem eq_none_of_not_touches {p : Pairing} {a b : NodeId} (h : ¬ p.Touches (a, b)) :
    p.image? a = none ∧ p.preimage? b = none := by
  rw [touches_iff, not_or] at h
  exact ⟨Option.eq_none_iff_forall_ne_some.2 fun x hx => h.1 ⟨x, hx⟩,
    Option.eq_none_iff_forall_ne_some.2 fun y hy => h.2 ⟨y, hy⟩⟩

end Pairing

section

variable {known : Types} {nodes : Array Node} {env : Env} {rest : List (NodeId × NodeId)}
  {p : Pairing} {a b : NodeId}

theorem pairUp_again (hp : p.OneToOne) (h : (a, b) ∈ p) :
    pairUp nodes env ((a, b) :: rest) p = pairUp nodes env rest p := by
  rw [pairUp, hp.image? h, hp.preimage? h]
  simp

theorem pairUp_crossed (hm : (a, b) ∉ p) (ht : p.Touches (a, b)) :
    pairUp nodes env ((a, b) :: rest) p = pure none := by
  rw [pairUp]
  cases ha : p.image? a with
  | none =>
    cases hb : p.preimage? b with
    | none => simp [Pairing.touches_iff, ha, hb] at ht
    | some y => rfl
  | some x =>
    cases hb : p.preimage? b with
    | none => rfl
    | some y =>
      have hx : x ≠ b := fun hx => hm (hx ▸ Pairing.mem_of_image? ha)
      simp [hx]

theorem pairUp_fresh (ht : ¬ p.Touches (a, b)) :
    pairUp nodes env ((a, b) :: rest) p = (corresponds nodes env a b >>= fun c =>
      if c then pairUp nodes env
        (((Arena.dag nodes).operands a).zip ((Arena.dag nodes).operands b) ++ rest) ((a, b) :: p)
      else pure none) := by
  obtain ⟨ha, hb⟩ := Pairing.eq_none_of_not_touches ht
  rw [pairUp, ha, hb]

theorem Pairing.OneToOne.add (hp : p.OneToOne) (ht : ¬ p.Touches (a, b)) :
    OneToOne ((a, b) :: p) :=
  have hnone := eq_none_of_not_touches ht
  hp.cons hnone.1 hnone.2

/-- The comparisons that come to an end: they take up the pending pairs from the front, and find
a pairing or none. -/
inductive PairsUp (known : Types) (nodes : Array Node) (env : Env) :
    List (NodeId × NodeId) → Pairing → Option Pairing → Prop
  | done (p : Pairing) : PairsUp known nodes env [] p (some p)
  | again {ab : NodeId × NodeId} {rest : List (NodeId × NodeId)} {p : Pairing} {o : Option Pairing}
    (hm : ab ∈ p) (h : PairsUp known nodes env rest p o) : PairsUp known nodes env (ab :: rest) p o
  /-- One of the two nodes belongs to another already. -/
  | crossed {ab : NodeId × NodeId} {rest : List (NodeId × NodeId)} {p : Pairing} (hm : ab ∉ p)
    (ht : p.Touches ab) : PairsUp known nodes env (ab :: rest) p none
  | pair {ab : NodeId × NodeId} {rest : List (NodeId × NodeId)} {p : Pairing} {o : Option Pairing}
    (ht : ¬ p.Touches ab) (hl : likeness known nodes env ab.1 ab.2 = .ok true)
    (h : PairsUp known nodes env
      (((Arena.dag nodes).operands ab.1).zip ((Arena.dag nodes).operands ab.2) ++ rest)
      (ab :: p) o) : PairsUp known nodes env (ab :: rest) p o
  | unlike {ab : NodeId × NodeId} {rest : List (NodeId × NodeId)} {p : Pairing}
    (ht : ¬ p.Touches ab) (hl : likeness known nodes env ab.1 ab.2 = .ok false) :
    PairsUp known nodes env (ab :: rest) p none

theorem outcome_injective {σ α : Type} {r r' : Except Failure α} {s s' : σ}
    (h : outcome r s = outcome r' s') : r = r' ∧ s = s' := by
  cases r <;> cases r' <;> simp_all [outcome]

theorem Typing.Finds.unique {α : Type} {x : Typing α} {r r' : Except Failure α}
    (h : Finds known nodes env x r) (h' : Finds known nodes env x r') : r = r' := by
  obtain ⟨ts, _, hr⟩ := h known (coherent_self known nodes env)
  obtain ⟨ts', _, hr'⟩ := h' known (coherent_self known nodes env)
  exact (outcome_injective (hr.symm.trans hr')).1

theorem Typing.Finds.bind_ok {α β : Type} {x : Typing α} {c : α} {f : α → Typing β}
    {r : Except Failure β} (hx : Finds known nodes env x (.ok c))
    (hf : Finds known nodes env (f c) r) : Finds known nodes env (x >>= f) r := by
  refine hx.bind (g := fun _ => r) fun d hd => ?_
  cases hd
  exact hf

theorem PairsUp.finds {todo : List (NodeId × NodeId)} {p : Pairing} {o : Option Pairing}
    (h : PairsUp known nodes env todo p o) (hp : p.OneToOne) :
    Typing.Finds known nodes env (pairUp nodes env todo p) (.ok o) := by
  induction h with
  | done p =>
    rw [pairUp]
    exact Typing.Finds.pure _
  | again hm _ ih =>
    rw [pairUp_again hp hm]
    exact ih hp
  | crossed hm ht =>
    rw [pairUp_crossed hm ht]
    exact Typing.Finds.pure _
  | pair ht hl _ ih =>
    rw [pairUp_fresh ht]
    apply (hl ▸ finds_corresponds _ _ : Typing.Finds _ _ _ _ (.ok true)).bind_ok
    exact ih (hp.add ht)
  | unlike ht hl =>
    rw [pairUp_fresh ht]
    apply (hl ▸ finds_corresponds _ _ : Typing.Finds _ _ _ _ (.ok false)).bind_ok
    exact Typing.Finds.pure _

/-- A comparison that gives an answer comes to an end. -/
theorem pairsUp_of_finds {todo : List (NodeId × NodeId)} {p : Pairing} {o : Option Pairing}
    (hp : p.OneToOne) (h : Typing.Finds known nodes env (pairUp nodes env todo p) (.ok o)) :
    PairsUp known nodes env todo p o := by
  induction todo, p using pairUp.induct nodes generalizing o with
  | case1 p =>
    rw [pairUp] at h
    cases h.unique (.pure (some p))
    exact .done p
  | case2 p a b rest x y hy hx he ih =>
    have hm : (a, b) ∈ p := he.1 ▸ Pairing.mem_of_image? hx
    rw [pairUp_again hp hm] at h
    exact .again hm (ih hp h)
  | case3 p a b rest x y hy hx he =>
    have hm : (a, b) ∉ p := by
      intro hm
      rw [hp.image? hm, Option.some.injEq] at hx
      rw [hp.preimage? hm, Option.some.injEq] at hy
      exact he ⟨hx.symm, hy.symm⟩
    have ht : p.Touches (a, b) := Pairing.touches_iff.2 (.inl ⟨x, hx⟩)
    rw [pairUp_crossed hm ht] at h
    cases h.unique (.pure none)
    exact .crossed hm ht
  | case4 p a b rest hb ha ih =>
    have ht : ¬ p.Touches (a, b) := by simp [Pairing.touches_iff, ha, hb]
    rw [pairUp_fresh ht] at h
    have hc := @finds_corresponds known nodes env a b
    cases hl : likeness known nodes env a b with
    | error e =>
      rw [hl] at hc
      cases h.unique (hc.bind (g := fun _ => .ok none) fun c hc => by cases hc)
    | ok c =>
      rw [hl] at hc
      cases c with
      | false =>
        cases h.unique (hc.bind_ok (.pure none))
        exact .unlike ht hl
      | true =>
        obtain ⟨r, hr, _⟩ := finds_pairUp known nodes env
          (((Arena.dag nodes).operands a).zip ((Arena.dag nodes).operands b) ++ rest) ((a, b) :: p)
        obtain rfl := h.unique (hc.bind_ok hr)
        exact .pair ht hl (ih (hp.add ht) hr)
  | case5 p a b rest hsome hnone =>
    have hm : (a, b) ∉ p := fun hm => hsome b a (hp.image? hm) (hp.preimage? hm)
    have ht : p.Touches (a, b) := by
      by_contra ht
      obtain ⟨ha, hb⟩ := Pairing.eq_none_of_not_touches ht
      exact hnone ha hb
    rw [pairUp_crossed hm ht] at h
    cases h.unique (.pure none)
    exact .crossed hm ht

/-- What carries pairs of nodes over to others, so that they are compared alike. -/
structure Transfers (known : Types) (nodes : Array Node) (env : Env) (P : NodeId × NodeId → Prop)
    (σ : NodeId × NodeId → NodeId × NodeId) : Prop where
  injective : ∀ x y, P x → P y → σ x = σ y → x = y
  touching : ∀ x y, P x → P y →
    ((σ x).1 = (σ y).1 ∨ (σ x).2 = (σ y).2 ↔ x.1 = y.1 ∨ x.2 = y.2)
  operands : ∀ x, P x →
    ((Arena.dag nodes).operands (σ x).1).zip ((Arena.dag nodes).operands (σ x).2) =
      (((Arena.dag nodes).operands x.1).zip ((Arena.dag nodes).operands x.2)).map σ
  closed : ∀ x, P x → ∀ y ∈ ((Arena.dag nodes).operands x.1).zip ((Arena.dag nodes).operands x.2),
    P y
  likeness : ∀ x c, P x → likeness known nodes env x.1 x.2 = .ok c →
    likeness known nodes env (σ x).1 (σ x).2 = .ok c

namespace Transfers

variable {P : NodeId × NodeId → Prop} {σ : NodeId × NodeId → NodeId × NodeId}

theorem mem_iff (h : Transfers known nodes env P σ) {p : Pairing} (hp : ∀ x ∈ p, P x)
    {ab : NodeId × NodeId} (hab : P ab) : σ ab ∈ p.map σ ↔ ab ∈ p := by
  refine ⟨fun hm => ?_, List.mem_map_of_mem⟩
  obtain ⟨x, hx, he⟩ := List.mem_map.1 hm
  rwa [← h.injective x ab (hp x hx) hab he]

theorem touches_iff (h : Transfers known nodes env P σ) {p : Pairing} (hp : ∀ x ∈ p, P x)
    {ab : NodeId × NodeId} (hab : P ab) :
    Pairing.Touches (p.map σ) (σ ab) ↔ p.Touches ab := by
  constructor
  · rintro ⟨_, hm, ht⟩
    obtain ⟨x, hx, rfl⟩ := List.mem_map.1 hm
    exact ⟨x, hx, (h.touching x ab (hp x hx) hab).1 ht⟩
  · rintro ⟨x, hx, ht⟩
    exact ⟨σ x, List.mem_map_of_mem hx, (h.touching x ab (hp x hx) hab).2 ht⟩

/-- A comparison goes on pairs that are carried over as it went on the pairs themselves. -/
theorem pairsUp (h : Transfers known nodes env P σ) {todo : List (NodeId × NodeId)} {p : Pairing}
    {o : Option Pairing} (hrun : PairsUp known nodes env todo p o) (htodo : ∀ x ∈ todo, P x)
    (hp : ∀ x ∈ p, P x) :
    PairsUp known nodes env (todo.map σ) (p.map σ) (o.map fun q => q.map σ) := by
  induction hrun with
  | done p => exact .done _
  | again hm _ ih =>
    obtain ⟨hab, hrest⟩ := List.forall_mem_cons.1 htodo
    exact .again ((h.mem_iff hp hab).2 hm) (ih hrest hp)
  | crossed hm ht =>
    obtain ⟨hab, hrest⟩ := List.forall_mem_cons.1 htodo
    exact .crossed (mt (h.mem_iff hp hab).1 hm) ((h.touches_iff hp hab).2 ht)
  | @pair ab rest p o ht hl _ ih =>
    obtain ⟨hab, hrest⟩ := List.forall_mem_cons.1 htodo
    refine .pair (mt (h.touches_iff hp hab).1 ht) (h.likeness ab true hab hl) ?_
    have hbelow := ih (List.forall_mem_append.2 ⟨h.closed ab hab, hrest⟩)
      (List.forall_mem_cons.2 ⟨hab, hp⟩)
    rwa [List.map_append, ← h.operands ab hab] at hbelow
  | @unlike ab rest p ht hl =>
    obtain ⟨hab, hrest⟩ := List.forall_mem_cons.1 htodo
    exact .unlike (mt (h.touches_iff hp hab).1 ht) (h.likeness ab false hab hl)

end Transfers

theorem Literal.sameKind_comm (c d : Literal) : c.sameKind d = d.sameKind c := by
  cases c <;> cases d <;> simp [sameKind, BEq.comm]

theorem Node.sameKind_comm (m n : Node) : m.sameKind n = n.sameKind m := by
  cases m <;> cases n <;> simp [sameKind, BEq.comm, Literal.sameKind_comm]

theorem Node.Alike.isInput {m n : Node} (h : m.Alike n) : n.isInput = m.isInput := by
  cases h <;> rfl

theorem Node.Alike.sameKind {m n : Node} (h : m.Alike n) (l : Node) :
    l.sameKind n = l.sameKind m := by
  cases l with
  | literal c => cases h <;> cases c <;> simp_all [Node.sameKind, Literal.sameKind]
  | _ => cases h <;> rfl

theorem nodes_of_likeness {c : Bool} (h : likeness known nodes env a b = .ok c) :
    ∃ m n, nodes[a]? = some m ∧ nodes[b]? = some n := by
  cases ha : nodes[a]? with
  | none => simp [likeness, ha, throw, throwThe, MonadExceptOf.throw] at h
  | some m =>
    cases hb : nodes[b]? with
    | none => simp [likeness, ha, hb, throw, throwThe, MonadExceptOf.throw] at h
    | some n => exact ⟨m, n, rfl, rfl⟩

/-- Two inputs are compared by their types, which must be found. -/
theorem likeness_inputs_eq_ok {i j : NeuronId} (ha : nodes[a]? = some (.input i))
    (hb : nodes[b]? = some (.input j)) {c : Bool} : likeness known nodes env a b = .ok c ↔
      ∃ t u, typeFrom known nodes env a = .ok t ∧ typeFrom known nodes env b = .ok u ∧
        (t == u) = c := by
  rw [likeness_input ha hb]
  simp only [bind_eq_ok, pure, Except.pure, Except.ok.injEq]
  constructor
  · rintro ⟨t, ht, u, hu, hc⟩
    exact ⟨t, u, ht, hu, hc⟩
  · rintro ⟨t, u, ht, hu, hc⟩
    exact ⟨t, ht, u, hu, hc⟩

theorem likeness_symm {c : Bool} (h : likeness known nodes env a b = .ok c) :
    likeness known nodes env b a = .ok c := by
  obtain ⟨m, n, ha, hb⟩ := nodes_of_likeness h
  by_cases hi : m.isInput = true ∧ n.isInput = true
  · cases m <;> cases n <;> simp only [Node.isInput, Bool.false_eq_true, and_false, false_and] at hi
    obtain ⟨t, u, ht, hu, hc⟩ := (likeness_inputs_eq_ok ha hb).1 h
    exact (likeness_inputs_eq_ok hb ha).2 ⟨u, t, hu, ht, by rw [BEq.comm, hc]⟩
  · rw [likeness_node ha hb (by simpa using hi)] at h
    rw [likeness_node hb ha (fun hn => by simpa [hn] using hi), Node.sameKind_comm, h]

/-- A node can be replaced by one that corresponds to it. -/
theorem likeness_congr {x : NodeId} {c : Bool} (hab : Corresponding known nodes env a b)
    (h : likeness known nodes env x a = .ok c) : likeness known nodes env x b = .ok c := by
  obtain ⟨l, _, hx, _⟩ := nodes_of_likeness h
  obtain ⟨m, n, ha, hb, hl, _⟩ := hab.alike
  by_cases hi : l.isInput = true ∧ m.isInput = true
  · have hn := hl.isInput
    cases l <;> cases m <;> simp only [Node.isInput, Bool.false_eq_true, and_false, false_and] at hi
    cases n <;> simp only [Node.isInput, Bool.false_eq_true] at hn
    obtain ⟨t, u, ht, hu, hc⟩ := (likeness_inputs_eq_ok hx ha).1 h
    exact (likeness_inputs_eq_ok hx hb).2 ⟨t, u, ht, by rw [hab.inputs _ ha, hu], hc⟩
  · rw [likeness_node hx ha (by simpa using hi)] at h
    rw [likeness_node hx hb (by simpa [hl.isInput] using hi), hl.sameKind, h]

theorem transfers_swap : Transfers known nodes env (fun _ => True) Prod.swap where
  injective _ _ _ _ h := Prod.swap_injective h
  touching _ _ _ _ := or_comm
  operands _ _ := (List.zip_swap _ _).symm
  closed _ _ _ _ := trivial
  likeness _ _ _ h := likeness_symm h

theorem Matches.transfers {D : NodeId → Prop} {f : NodeId → NodeId}
    (hf : Matches known nodes env D f) :
    Transfers known nodes env (fun x => D x.2) (fun x => (x.1, f x.2)) where
  injective x y hx hy h := by
    obtain ⟨h₁, h₂⟩ := Prod.mk.inj h
    exact Prod.ext h₁ (hf.injective _ _ hx hy h₂)
  touching x y hx hy := or_congr_right ⟨hf.injective _ _ hx hy, congrArg f⟩
  operands x hx := by
    rw [hf.operands _ hx, List.zip_map_right]
    rfl
  closed x hx y hy := hf.closed _ hx _ (List.of_mem_zip hy).2
  likeness x c hx h := likeness_congr (hf.corresponding _ hx) h

/-- Comparison gives an answer exactly if it comes to an end. -/
theorem finds_sameShape_eq_ok {c : Bool} :
    Typing.Finds known nodes env (sameShape nodes env a b) (.ok c) ↔
      ∃ o, PairsUp known nodes env [(a, b)] [] o ∧ o.isSome = c := by
  have hempty : Pairing.OneToOne [] := by simp [Pairing.OneToOne]
  constructor
  · intro h
    obtain ⟨r, hr, _⟩ := finds_pairUp known nodes env [(a, b)] []
    have hshape : Typing.Finds known nodes env (sameShape nodes env a b)
        (r >>= fun o => .ok o.isSome) := hr.bind fun o _ => .pure _
    obtain ⟨o, rfl, hc⟩ := bind_eq_ok.1 (hshape.unique h)
    exact ⟨o, pairsUp_of_finds hempty hr, Except.ok.inj hc⟩
  · rintro ⟨o, ho, rfl⟩
    exact (ho.finds hempty).bind_ok (.pure _)

theorem finds_sameShape_symm {c : Bool}
    (h : Typing.Finds known nodes env (sameShape nodes env a b) (.ok c)) :
    Typing.Finds known nodes env (sameShape nodes env b a) (.ok c) := by
  obtain ⟨o, ho, hc⟩ := finds_sameShape_eq_ok.1 h
  have hswap := transfers_swap.pairsUp ho (by simp) (by simp)
  exact finds_sameShape_eq_ok.2 ⟨_, hswap, by simpa using hc⟩

/-- An expression can be replaced by one of its shape, whatever it is compared with. -/
theorem finds_sameShape_congr (ho : Arena.Ordered nodes) {x : NodeId} {c : Bool}
    (hab : Typing.Finds known nodes env (sameShape nodes env a b) (.ok true))
    (h : Typing.Finds known nodes env (sameShape nodes env x a) (.ok c)) :
    Typing.Finds known nodes env (sameShape nodes env x b) (.ok c) := by
  obtain ⟨r, hr, hmatch, _⟩ := finds_sameShape known env ho a b
  obtain ⟨f, rfl, hf⟩ := hmatch (hr.unique hab)
  obtain ⟨o, ho, hc⟩ := finds_sameShape_eq_ok.1 h
  have hcarried := hf.transfers.pairsUp ho (by simp [Dag.Reaches.refl]) (by simp)
  exact finds_sameShape_eq_ok.2 ⟨_, hcarried, by simpa using hc⟩

/-- A pairing that was found has all pairs that were pending, and with each pair that was added
those of its operands. -/
theorem PairsUp.closed {todo : List (NodeId × NodeId)} {p q : Pairing}
    (h : PairsUp known nodes env todo p (some q)) :
    (∀ x ∈ p, x ∈ q) ∧ (∀ x ∈ todo, x ∈ q) ∧ ∀ x ∈ q, x ∈ p ∨
      likeness known nodes env x.1 x.2 = .ok true ∧
        ∀ y ∈ ((Arena.dag nodes).operands x.1).zip ((Arena.dag nodes).operands x.2), y ∈ q := by
  generalize ho : some q = o at h
  induction h with
  | done p =>
    cases ho
    exact ⟨fun _ hx => hx, by simp, fun _ hx => .inl hx⟩
  | again hm _ ih =>
    obtain ⟨hp, htodo, hq⟩ := ih ho
    exact ⟨hp, List.forall_mem_cons.2 ⟨hp _ hm, htodo⟩, hq⟩
  | crossed hm ht => cases ho
  | pair ht hl _ ih =>
    obtain ⟨hp, htodo, hq⟩ := ih ho
    obtain ⟨hab, hp⟩ := List.forall_mem_cons.1 hp
    obtain ⟨hzip, hrest⟩ := List.forall_mem_append.1 htodo
    refine ⟨hp, List.forall_mem_cons.2 ⟨hab, hrest⟩, fun x hx => ?_⟩
    rcases hq x hx with hmem | hnew
    · rcases List.mem_cons.1 hmem with rfl | hmem
      · exact .inr ⟨hl, hzip⟩
      · exact .inl hmem
    · exact .inr hnew
  | unlike ht hl => cases ho

theorem exists_mem_zip {l l' : List NodeId} (hl : l.length = l'.length) {x : NodeId} (hx : x ∈ l) :
    ∃ y, (x, y) ∈ l.zip l' := by
  obtain ⟨i, hi, rfl⟩ := List.mem_iff_getElem.1 hx
  refine ⟨l'[i], ?_⟩
  rw [← List.getElem_zip (h := by rw [List.length_zip]; omega)]
  exact List.getElem_mem _

/-- A comparison that finds one shape has met each node and compared it with one like it. -/
theorem like_of_sameShape (ho : Arena.Ordered nodes)
    (h : Typing.Finds known nodes env (sameShape nodes env a b) (.ok true)) {x : NodeId}
    (hx : (Arena.dag nodes).Reaches a x) : ∃ y, likeness known nodes env x y = .ok true := by
  obtain ⟨o, hrun, ho'⟩ := finds_sameShape_eq_ok.1 h
  obtain ⟨q, rfl⟩ := Option.isSome_iff_exists.1 ho'
  obtain ⟨_, hab, hq⟩ := hrun.closed
  have hlike : ∀ y z, (y, z) ∈ q → likeness known nodes env y z = .ok true ∧
      ∀ w ∈ ((Arena.dag nodes).operands y).zip ((Arena.dag nodes).operands z), w ∈ q :=
    fun y z hyz => by simpa using hq _ hyz
  have hmet : ∃ y, (x, y) ∈ q := by
    induction hx with
    | refl => exact ⟨b, hab _ List.mem_cons_self⟩
    | tail _ hz ih =>
      obtain ⟨y, hy⟩ := ih
      obtain ⟨hl, hzip⟩ := hlike _ _ hy
      obtain ⟨w, hw⟩ := exists_mem_zip ((corresponding_of_likeness hl).length_operands ho) hz
      exact ⟨w, hzip _ hw⟩
  obtain ⟨y, hy⟩ := hmet
  exact ⟨y, (hlike x y hy).1⟩

/-- Inputs that have no type stop a comparison, so one that finds one shape has met none. -/
theorem resolved_of_sameShape (ho : Arena.Ordered nodes)
    (h : Typing.Finds known nodes env (sameShape nodes env a b) (.ok true)) :
    Resolved known nodes env a := by
  intro x hx
  obtain ⟨y, hy⟩ := like_of_sameShape ho h hx
  obtain ⟨m, n, hm, hn, hl, _⟩ := (corresponding_of_likeness hy).alike
  refine ⟨m, hm, fun hi => ?_⟩
  cases hl <;> simp only [Node.isInput, Bool.false_eq_true] at hi
  obtain ⟨t, _, ht, _⟩ := (likeness_inputs_eq_ok hm hn).1 hy
  exact ⟨t, ht⟩

theorem orTypeError_bind {α β : Type} (r : Except TypeError α) (f : α → Except TypeError β) :
    (orTypeError (r >>= f) : Except Failure β) = orTypeError r >>= fun x => orTypeError (f x) := by
  cases r <;> rfl

/-- What is resolved has a type or a type error, and meets no defect. -/
theorem typeOf_resolved (ho : Arena.Ordered nodes) {root : NodeId}
    (h : Resolved ∅ nodes env root)
    (hk : ∀ x n, (Arena.dag nodes).Reaches root x → nodes[x]? = some n → n.readsKernel = false) :
    ∃ r : Except TypeError Ty, typeOf nodes env root = orTypeError r := by
  induction root using Nat.strong_induction_on with
  | _ root ih =>
    obtain ⟨n, hn, hinput⟩ := h root (.refl _ root)
    have hoperand : ∀ x ∈ n.operands, ∃ r : Except TypeError Ty,
        typeOf nodes env x = orTypeError r := by
      intro x hx
      have hop : x ∈ (Arena.dag nodes).operands root := by
        change x ∈ Arena.operandsOf nodes root
        rwa [Arena.operandsOf_eq ho hn]
      exact ih x (ho root n hn x hx) (h.operand hop)
        fun y m hy => hk y m ((Dag.Reaches.operand hop).trans hy)
    have hkernel := hk root n (.refl _ root) hn
    by_cases hi : n.isInput = true
    · obtain ⟨t, ht⟩ := hinput hi
      exact ⟨.ok t, ht⟩
    · rw [typeOf_node ho hn]
      cases n with
      | literal c => exact ⟨.ok c.ty, rfl⟩
      | unary op x => exact hoperand x List.mem_cons_self
      | binary op l r =>
        obtain ⟨t, ht⟩ := hoperand l List.mem_cons_self
        obtain ⟨u, hu⟩ := hoperand r (List.mem_cons_of_mem _ List.mem_cons_self)
        refine ⟨t >>= fun t => u >>= fun u => Rule.join t u, ?_⟩
        simp only [Node.typeBy, ht, hu, orTypeError_bind]
      | input i => exact absurd rfl hi
      | reduce kind x =>
        obtain ⟨t, ht⟩ := hoperand x List.mem_cons_self
        refine ⟨t >>= Rule.reduce, ?_⟩
        simp only [Node.typeBy, ht, orTypeError_bind]
      | activate name x =>
        obtain ⟨t, ht⟩ := hoperand x List.mem_cons_self
        refine ⟨t >>= Rule.activate name, ?_⟩
        simp only [Node.typeBy, ht, orTypeError_bind]
      | var v => cases hkernel
      | element v x => cases hkernel
      | entry t x => cases hkernel

/-- Expressions of one shape have one type, with the lengths of vectors, or stop at one type error.
The answer is the same for both whatever types are remembered, as long as the rules give them. If an
input is not resolved, the comparison itself stops. -/
theorem one_shape_one_type {types types' : Types} (ho : Arena.Ordered nodes)
    (hc : Coherent ∅ nodes env types) (h : sameShape nodes env a b types = .ok true types') :
    Coherent ∅ nodes env types' ∧ ∃ r : Except TypeError Ty, ∀ ts, Coherent ∅ nodes env ts →
      ∃ ts₁ ts₂, infer nodes env a ts = outcome (orTypeError r) ts₁ ∧
        infer nodes env b ts = outcome (orTypeError r) ts₂ := by
  obtain ⟨r, hr, hmatch, _⟩ := finds_sameShape ∅ env ho a b
  obtain ⟨ts, hts, hrun⟩ := hr types hc
  obtain ⟨rfl, rfl⟩ := outcome_injective (hrun.symm.trans h : _ = outcome (.ok true) types')
  obtain ⟨f, rfl, hf⟩ := hmatch rfl
  have heq := (matches_iff_likens.1 hf).typeOf_eq ho ho (.refl _ a)
  obtain ⟨r, hr⟩ := typeOf_resolved ho (resolved_of_sameShape ho hr) fun x n hx hn =>
    hf.readsKernel rfl (.inl hx) hn
  refine ⟨hts, r, fun ts hts => ?_⟩
  obtain ⟨ts₁, _, h₁⟩ := finds_infer ∅ nodes env a ts hts
  obtain ⟨ts₂, _, h₂⟩ := finds_infer ∅ nodes env (f a) ts hts
  exact ⟨ts₁, ts₂, by rw [h₁, ← hr], by rw [h₂, ← hr, ← heq]⟩

/-- Products that are cut to the shorter operand and added to themselves. Each is then multiplied by
a boolean, which no rule allows. -/
def cutProducts : Array Node := #[.input 0, .literal (.vec [⟨1⟩, ⟨2⟩, ⟨3⟩]), .binary .mul 0 1,
  .input 1, .literal (.vec [⟨4⟩, ⟨5⟩, ⟨6⟩]), .binary .mul 3 4, .binary .add 2 2, .binary .add 5 5,
  .literal (.bool true), .literal (.bool false), .binary .mul 6 8, .binary .mul 7 9]

theorem eq_ok_of_run' {σ α : Type} {x : EStateM Failure σ α} {s : σ} {c : α}
    (h : x.run' s = some c) : ∃ s', x s = .ok c s' := by
  cases hx : x s with
  | ok d s' =>
    have hd : x.run' s = some d := congrArg (fun r => EStateM.run' (fun _ => r) s) hx
    rw [h, Option.some.injEq] at hd
    exact ⟨s', by rw [hd]⟩
  | error e s' =>
    have hnone : x.run' s = none := congrArg (fun r => EStateM.run' (fun _ => r) s) hx
    cases h.symm.trans hnone

theorem cutProducts_one_type : Arena.Ordered cutProducts ∧
    (∃ ts, infer cutProducts pairsOfReals 6 ∅ = .ok (.vectorOf .real 2) ts) ∧
    (∃ ts, infer cutProducts pairsOfReals 7 ∅ = .ok (.vectorOf .real 2) ts) ∧
    (∃ ts, infer cutProducts pairsOfReals 10 ∅ =
      .error (.error (.type (.incompatibleOperands (.vectorOf .real 2) .bool))) ts) ∧
    ∃ ts, infer cutProducts pairsOfReals 11 ∅ =
      .error (.error (.type (.incompatibleOperands (.vectorOf .real 2) .bool))) ts := by
  have ho : Arena.Ordered cutProducts := by decide +kernel
  have hempty : Coherent ∅ cutProducts pairsOfReals ∅ := coherent_self _ _ _
  have hsame (a b : NodeId) {r : Except Failure Ty}
      (h : (sameShape cutProducts pairsOfReals a b).run' ∅ = some true)
      (hr : typeOf cutProducts pairsOfReals a = r) :
      (∃ ts, infer cutProducts pairsOfReals a ∅ = outcome r ts) ∧
        ∃ ts, infer cutProducts pairsOfReals b ∅ = outcome r ts := by
    obtain ⟨types', hrun⟩ := eq_ok_of_run' h
    obtain ⟨_, r', hr'⟩ := one_shape_one_type ho hempty hrun
    obtain ⟨ts, _, hinfer⟩ := finds_infer ∅ cutProducts pairsOfReals a ∅ hempty
    obtain ⟨ts₁, ts₂, h₁, h₂⟩ := hr' ∅ hempty
    have heq : r = orTypeError r' := hr.symm.trans (outcome_injective (hinfer.symm.trans h₁)).1
    exact ⟨⟨ts₁, by rw [h₁, heq]⟩, ts₂, by rw [h₂, heq]⟩
  obtain ⟨h6, h7⟩ := hsame 6 7 (r := .ok (.vectorOf .real 2)) (by decide +kernel)
    (by decide +kernel)
  obtain ⟨h10, h11⟩ := hsame 10 11 (r := .error
    (.error (.type (.incompatibleOperands (.vectorOf .real 2) .bool)))) (by decide +kernel)
    (by decide +kernel)
  exact ⟨ho, h6, h7, h10, h11⟩

end

end Synapse
