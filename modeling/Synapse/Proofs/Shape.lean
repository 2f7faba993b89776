import Mathlib.Data.Set.Function
import Mathlib.Tactic
import Synapse.Expr.Shape
import Synapse.Proofs.Typing

namespace Synapse

/-- Two nodes of one kind: the same operator, reduction or function, or leaves of the same sort.
Vectors among the literals have one length. -/
inductive Node.Alike : Node → Node → Prop
  | int (m n : Int) : Alike (.literal (.int m)) (.literal (.int n))
  | bool (b c : Bool) : Alike (.literal (.bool b)) (.literal (.bool c))
  | real (x y : Binary64) : Alike (.literal (.real x)) (.literal (.real y))
  | vec (xs ys : List Binary64) (h : xs.length = ys.length) :
    Alike (.literal (.vec xs)) (.literal (.vec ys))
  | unary (op : Unary) (x y : NodeId) : Alike (.unary op x) (.unary op y)
  | binary (op : Binary) (l r l' r' : NodeId) : Alike (.binary op l r) (.binary op l' r')
  | input (m n : NeuronId) : Alike (.input m) (.input n)
  | reduce (kind : Reduction) (x y : NodeId) : Alike (.reduce kind x) (.reduce kind y)
  | activate (name : String) (x y : NodeId) : Alike (.activate name x) (.activate name y)
  | var (v w : VarId) : Alike (.var v) (.var w)
  | element (v w : VarId) (x y : NodeId) : Alike (.element v x) (.element w y)
  | entry (s t : TableId) (x y : NodeId) : Alike (.entry s x) (.entry t y)

/-- Whether a node reads a variable or a table, as only kernels do. -/
def Node.readsKernel : Node → Bool
  | .var _ | .element _ _ | .entry _ _ => true
  | _ => false

def Node.isInput : Node → Bool
  | .input _ => true
  | _ => false

theorem Node.Alike.length_operands {m n : Node} (h : m.Alike n) :
    m.operands.length = n.operands.length := by
  cases h <;> rfl

theorem Node.Alike.readsKernel {m n : Node} (h : m.Alike n) : n.readsKernel = m.readsKernel := by
  cases h <;> rfl

theorem Node.sameKind_iff {m n : Node} :
    m.sameKind n = true ↔ m.Alike n ∧ m.readsKernel = false ∧ m.isInput = false := by
  constructor
  · intro h
    cases m <;> cases n <;> simp only [Node.sameKind, Bool.false_eq_true, beq_iff_eq] at h
    case literal.literal c d =>
      refine ⟨?_, rfl, rfl⟩
      cases c <;> cases d <;> simp only [Literal.sameKind, Bool.false_eq_true, beq_iff_eq] at h
      · exact .int _ _
      · exact .bool _ _
      · exact .real _ _
      · exact .vec _ _ h
    all_goals subst h
    · exact ⟨.unary _ _ _, rfl, rfl⟩
    · exact ⟨.binary _ _ _ _ _, rfl, rfl⟩
    · exact ⟨.reduce _ _ _, rfl, rfl⟩
    · exact ⟨.activate _ _ _, rfl, rfl⟩
  · rintro ⟨h, hk, hi⟩
    cases h <;> simp_all [Node.sameKind, Literal.sameKind, Node.readsKernel, Node.isInput]

section

variable {known : Types} {nodes : Array Node} {env : Env}

/-- Two nodes that one piece of code can compute, their operands aside. -/
structure Corresponding (known : Types) (nodes : Array Node) (env : Env) (a b : NodeId) :
    Prop where
  alike : ∃ m n, nodes[a]? = some m ∧ nodes[b]? = some n ∧ m.Alike n ∧ m.readsKernel = false
  inputs : ∀ n, nodes[a]? = some (.input n) →
    typeFrom known nodes env b = typeFrom known nodes env a

/-- The outcome of comparing two nodes, by the rules alone. -/
def likeness (known : Types) (nodes : Array Node) (env : Env) (a b : NodeId) :
    Except Failure Bool :=
  match nodes[a]?, nodes[b]? with
  | some (.input _), some (.input _) => do
    let t ← typeFrom known nodes env a
    let u ← typeFrom known nodes env b
    pure (t == u)
  | some m, some n => pure (m.sameKind n)
  | _, _ => throw (.defect (.outOfRange nodes.size (if a < nodes.size then b else a)))

theorem likeness_input {a b : NodeId} {i j : NeuronId} (ha : nodes[a]? = some (.input i))
    (hb : nodes[b]? = some (.input j)) :
    likeness known nodes env a b = (typeFrom known nodes env a >>= fun t =>
      typeFrom known nodes env b >>= fun u => pure (t == u)) := by
  simp only [likeness, ha, hb]

theorem likeness_node {a b : NodeId} {m n : Node} (ha : nodes[a]? = some m)
    (hb : nodes[b]? = some n) (h : m.isInput = true → n.isInput = false) :
    likeness known nodes env a b = .ok (m.sameKind n) := by
  unfold likeness
  rw [ha, hb]
  cases m <;> cases n <;> simp_all [Node.isInput, pure, Except.pure]

theorem finds_corresponds (a b : NodeId) :
    Typing.Finds known nodes env (corresponds nodes env a b) (likeness known nodes env a b) := by
  unfold corresponds
  split
  · rename_i ha hb
    rw [likeness_input ha hb]
    exact (finds_infer known nodes env a).bind fun t _ =>
      (finds_infer known nodes env b).bind fun u _ => Typing.Finds.pure _
  · rename_i m n hne ha hb
    rw [likeness_node ha hb]
    · exact Typing.Finds.pure _
    · cases m <;> cases n <;> simp_all [Node.isInput]
  · rename_i hne hnone
    have hl : likeness known nodes env a b =
        .error (.defect (.outOfRange nodes.size (if a < nodes.size then b else a))) := by
      unfold likeness
      split
      · simp_all
      · simp_all
      · rfl
    rw [hl]
    exact Typing.Finds.throw _

theorem corresponding_of_likeness {a b : NodeId} (h : likeness known nodes env a b = .ok true) :
    Corresponding known nodes env a b := by
  cases ha : nodes[a]? with
  | none => simp [likeness, ha, throw, throwThe, MonadExceptOf.throw] at h
  | some m =>
    cases hb : nodes[b]? with
    | none => simp [likeness, ha, hb, throw, throwThe, MonadExceptOf.throw] at h
    | some n =>
      by_cases hi : m.isInput = true ∧ n.isInput = true
      · cases m <;> cases n <;>
          simp only [Node.isInput, Bool.false_eq_true, and_false, false_and] at hi
        rename_i i j
        rw [likeness_input ha hb] at h
        cases ht : typeFrom known nodes env a with
        | error e => simp [ht, bind, Except.bind] at h
        | ok t =>
          cases hu : typeFrom known nodes env b with
          | error e => simp [ht, hu, bind, Except.bind] at h
          | ok u =>
            have htu : t = u := by simpa [ht, hu, bind, Except.bind, pure, Except.pure] using h
            exact ⟨⟨_, _, ha, hb, .input i j, rfl⟩, fun _ _ => by rw [ht, hu, htu]⟩
      · rw [likeness_node ha hb (by simpa using hi), Except.ok.injEq] at h
        obtain ⟨hl, hk, hm⟩ := Node.sameKind_iff.1 h
        refine ⟨⟨m, n, ha, hb, hl, hk⟩, ?_⟩
        intro i hi'
        rw [ha, Option.some.injEq] at hi'
        simp [hi', Node.isInput] at hm

theorem likeness_ne_false {a b : NodeId} (h : Corresponding known nodes env a b) :
    likeness known nodes env a b ≠ .ok false := by
  obtain ⟨m, n, hm, hn, hl, hk⟩ := h.alike
  cases hi : m.isInput with
  | false => simp [likeness_node hm hn (by simp [hi]), Node.sameKind_iff.2 ⟨hl, hk, hi⟩]
  | true =>
    cases hl <;> simp only [Node.isInput, Bool.false_eq_true] at hi
    rw [likeness_input hm hn, h.inputs _ hm]
    cases typeFrom known nodes env a <;> simp [bind, Except.bind, pure, Except.pure]

/-- Whether all that a node reaches is there, inputs with their types. -/
def Resolved (known : Types) (nodes : Array Node) (env : Env) (x : NodeId) : Prop :=
  ∀ y, (Arena.dag nodes).Reaches x y → ∃ n, nodes[y]? = some n ∧
    (n.isInput = true → ∃ t, typeFrom known nodes env y = .ok t)

theorem Resolved.operand {x y : NodeId} (h : Resolved known nodes env x)
    (hy : y ∈ (Arena.dag nodes).operands x) : Resolved known nodes env y :=
  fun z hz => h z ((Dag.Reaches.operand hy).trans hz)

theorem likeness_resolved {a b : NodeId} (ha : Resolved known nodes env a)
    (hb : Resolved known nodes env b) : ∃ c, likeness known nodes env a b = .ok c := by
  obtain ⟨m, hm, ht⟩ := ha a (.refl _ a)
  obtain ⟨n, hn, hu⟩ := hb b (.refl _ b)
  by_cases hi : m.isInput = true ∧ n.isInput = true
  · obtain ⟨t, hat⟩ := ht hi.1
    obtain ⟨u, hbu⟩ := hu hi.2
    cases m <;> cases n <;> simp only [Node.isInput, Bool.false_eq_true, and_false, false_and] at hi
    rw [likeness_input hm hn, hat, hbu]
    exact ⟨_, rfl⟩
  · exact ⟨_, likeness_node hm hn (by simpa using hi)⟩

/-- No two pairs have just one end in common. -/
def Pairing.OneToOne (p : Pairing) : Prop := ∀ x ∈ p, ∀ y ∈ p, x.1 = y.1 ↔ x.2 = y.2

theorem Pairing.mem_of_image? {p : Pairing} {a b : NodeId} (h : p.image? a = some b) :
    (a, b) ∈ p := by
  obtain ⟨x, hx, rfl⟩ := Option.map_eq_some_iff.1 h
  obtain rfl : x.1 = a := by simpa using List.find?_some hx
  exact List.mem_of_find?_eq_some hx

theorem Pairing.mem_of_preimage? {p : Pairing} {a b : NodeId} (h : p.preimage? b = some a) :
    (a, b) ∈ p := by
  obtain ⟨x, hx, rfl⟩ := Option.map_eq_some_iff.1 h
  obtain rfl : x.2 = b := by simpa using List.find?_some hx
  exact List.mem_of_find?_eq_some hx

theorem Pairing.image?_eq_none {p : Pairing} {a : NodeId} (h : p.image? a = none) :
    ∀ x ∈ p, x.1 ≠ a := by
  simpa [image?] using h

theorem Pairing.preimage?_eq_none {p : Pairing} {b : NodeId} (h : p.preimage? b = none) :
    ∀ x ∈ p, x.2 ≠ b := by
  simpa [preimage?] using h

theorem Pairing.OneToOne.cons {p : Pairing} {a b : NodeId} (h : p.OneToOne)
    (ha : p.image? a = none) (hb : p.preimage? b = none) : OneToOne ((a, b) :: p) := by
  have ha' := image?_eq_none ha
  have hb' := preimage?_eq_none hb
  intro x hx y hy
  rcases List.mem_cons.1 hx with rfl | hx <;> rcases List.mem_cons.1 hy with rfl | hy
  · simp
  · simp [Ne.symm (ha' y hy), Ne.symm (hb' y hy)]
  · simp [ha' x hx, hb' x hx]
  · exact h x hx y hy

/-- What holds of a pairing while the pairs in `todo` are still to be added. -/
structure Pairing.Sound (known : Types) (nodes : Array Node) (env : Env)
    (todo : List (NodeId × NodeId)) (p : Pairing) : Prop where
  oneToOne : p.OneToOne
  corresponding : ∀ x ∈ p, Corresponding known nodes env x.1 x.2
  operands : ∀ x ∈ p, ∀ y ∈ ((Arena.dag nodes).operands x.1).zip ((Arena.dag nodes).operands x.2),
    y ∈ p ∨ y ∈ todo

/-- A renaming that takes each node in `D` to one which corresponds to it. -/
structure Matches (known : Types) (nodes : Array Node) (env : Env) (D : NodeId → Prop)
    (f : NodeId → NodeId) : Prop extends (Arena.dag nodes).Renames (Arena.dag nodes) D f where
  corresponding : ∀ x, D x → Corresponding known nodes env x (f x)

/-- What the outcome of pairing up says about the pairs at hand. -/
structure Paired (known : Types) (nodes : Array Node) (env : Env) (todo : List (NodeId × NodeId))
    (p : Pairing) (r : Except Failure (Option Pairing)) : Prop where
  sound : ∀ q, r = .ok (some q) → p.Sound known nodes env todo →
    Pairing.Sound known nodes env [] q ∧ (∀ x ∈ p, x ∈ q) ∧ (∀ x ∈ todo, x ∈ q) ∧
    ∀ x ∈ q, x ∈ p ∨ ∃ y ∈ todo, (Arena.dag nodes).Reaches y.1 x.1 ∧
      (Arena.dag nodes).Reaches y.2 x.2
  answers : (∀ x ∈ todo, Resolved known nodes env x.1 ∧ Resolved known nodes env x.2) →
    ∃ o, r = .ok o
  complete : ∀ D f, Matches known nodes env D f → (∀ x ∈ p, D x.1 ∧ f x.1 = x.2) →
    (∀ x ∈ todo, D x.1 ∧ f x.1 = x.2) → r ≠ .ok none

theorem Pairing.Sound.skip {a b : NodeId} {rest : List (NodeId × NodeId)} {p : Pairing}
    (h : p.Sound known nodes env ((a, b) :: rest)) (hm : (a, b) ∈ p) :
    p.Sound known nodes env rest := by
  refine ⟨h.oneToOne, h.corresponding, ?_⟩
  intro x hx y hy
  rcases h.operands x hx y hy with hp | ht
  · exact .inl hp
  · rcases List.mem_cons.1 ht with rfl | ht
    · exact .inl hm
    · exact .inr ht

theorem Pairing.Sound.add {a b : NodeId} {rest : List (NodeId × NodeId)} {p : Pairing}
    (h : p.Sound known nodes env ((a, b) :: rest)) (hab : Corresponding known nodes env a b)
    (ha : p.image? a = none) (hb : p.preimage? b = none) :
    Pairing.Sound known nodes env
      (((Arena.dag nodes).operands a).zip ((Arena.dag nodes).operands b) ++ rest)
      ((a, b) :: p) := by
  refine ⟨h.oneToOne.cons ha hb, List.forall_mem_cons.2 ⟨hab, h.corresponding⟩, ?_⟩
  intro x hx y hy
  rcases List.mem_cons.1 hx with rfl | hx
  · exact .inr (List.mem_append_left _ hy)
  · rcases h.operands x hx y hy with hp | ht
    · exact .inl (by simp [hp])
    · rcases List.mem_cons.1 ht with rfl | ht
      · exact .inl (by simp)
      · exact .inr (List.mem_append_right _ ht)

theorem Matches.zip_operands {D : NodeId → Prop} {f : NodeId → NodeId}
    (hf : Matches known nodes env D f) {a : NodeId} (ha : D a) {x : NodeId × NodeId}
    (hx : x ∈ ((Arena.dag nodes).operands a).zip ((Arena.dag nodes).operands (f a))) :
    D x.1 ∧ f x.1 = x.2 := by
  rw [hf.operands a ha, ← List.map_prod_left_eq_zip] at hx
  obtain ⟨y, hy, rfl⟩ := List.mem_map.1 hx
  exact ⟨hf.closed a ha y hy, rfl⟩

theorem paired_nil (p : Pairing) : Paired known nodes env [] p (.ok (some p)) := by
  refine ⟨?_, fun _ => ⟨_, rfl⟩, by simp⟩
  intro q hq hs
  obtain rfl : p = q := by simpa using hq
  exact ⟨hs, fun _ h => h, by simp, fun _ h => .inl h⟩

theorem Paired.skip {a b : NodeId} {rest : List (NodeId × NodeId)} {p : Pairing}
    {r : Except Failure (Option Pairing)} (h : Paired known nodes env rest p r)
    (hm : (a, b) ∈ p) : Paired known nodes env ((a, b) :: rest) p r := by
  refine ⟨?_, fun hr => h.answers fun x hx => hr x (by simp [hx]),
    fun D f hf hp ht => h.complete D f hf hp fun x hx => ht x (by simp [hx])⟩
  intro q hq hs
  obtain ⟨hq, hpq, htq, hreach⟩ := h.sound q hq (hs.skip hm)
  refine ⟨hq, hpq, ?_, ?_⟩
  · intro x hx
    rcases List.mem_cons.1 hx with rfl | hx
    · exact hpq _ hm
    · exact htq x hx
  · intro x hx
    rcases hreach x hx with hp | ⟨y, hy, hr⟩
    · exact .inl hp
    · exact .inr ⟨y, by simp [hy], hr⟩

theorem Paired.add {a b : NodeId} {rest : List (NodeId × NodeId)} {p : Pairing}
    {r : Except Failure (Option Pairing)}
    (h : Paired known nodes env
      (((Arena.dag nodes).operands a).zip ((Arena.dag nodes).operands b) ++ rest) ((a, b) :: p) r)
    (ha : p.image? a = none) (hb : p.preimage? b = none) :
    Paired known nodes env ((a, b) :: rest) p (likeness known nodes env a b >>= fun c =>
      if c then r else .ok none) := by
  have hzip : ∀ x ∈ ((Arena.dag nodes).operands a).zip ((Arena.dag nodes).operands b),
      x.1 ∈ (Arena.dag nodes).operands a ∧ x.2 ∈ (Arena.dag nodes).operands b :=
    fun x hx => List.of_mem_zip (a := x.1) (b := x.2) hx
  refine ⟨?_, ?_, ?_⟩
  · intro q hq hs
    cases hl : likeness known nodes env a b with
    | error e => simp [hl, bind, Except.bind] at hq
    | ok c =>
      cases c with
      | false => simp [hl, bind, Except.bind] at hq
      | true =>
        obtain ⟨hq, hpq, htq, hreach⟩ := h.sound q (by simpa [hl, bind, Except.bind] using hq)
          (hs.add (corresponding_of_likeness hl) ha hb)
        refine ⟨hq, fun x hx => hpq x (by simp [hx]), ?_, ?_⟩
        · intro x hx
          rcases List.mem_cons.1 hx with rfl | hx
          · exact hpq _ (by simp)
          · exact htq x (by simp [hx])
        · intro x hx
          rcases hreach x hx with hp | ⟨y, hy, hr⟩
          · rcases List.mem_cons.1 hp with rfl | hp
            · exact .inr ⟨(a, b), by simp, .refl _ _, .refl _ _⟩
            · exact .inl hp
          · rcases List.mem_append.1 hy with hy | hy
            · exact .inr ⟨(a, b), by simp, (Dag.Reaches.operand (hzip y hy).1).trans hr.1,
                (Dag.Reaches.operand (hzip y hy).2).trans hr.2⟩
            · exact .inr ⟨y, by simp [hy], hr⟩
  · intro hr
    obtain ⟨hra, hrb⟩ := hr (a, b) (by simp)
    obtain ⟨c, hc⟩ := likeness_resolved hra hrb
    obtain ⟨o, ho⟩ := h.answers (by
      intro x hx
      rcases List.mem_append.1 hx with hx | hx
      · exact ⟨hra.operand (hzip x hx).1, hrb.operand (hzip x hx).2⟩
      · exact hr x (by simp [hx]))
    cases c with
    | false => exact ⟨none, by simp [hc, bind, Except.bind]⟩
    | true => exact ⟨o, by simp [hc, ho, bind, Except.bind]⟩
  · intro D f hf hp ht
    obtain ⟨hda, hfa⟩ := ht (a, b) (by simp)
    obtain rfl : f a = b := hfa
    have hne := likeness_ne_false (hf.corresponding a hda)
    cases hl : likeness known nodes env a (f a) with
    | error e => simp [bind, Except.bind]
    | ok c =>
      cases c with
      | false => exact absurd hl hne
      | true =>
        have hr := h.complete D f hf (List.forall_mem_cons.2 ⟨⟨hda, rfl⟩, hp⟩)
          (List.forall_mem_append.2 ⟨fun x hx => hf.zip_operands hda hx,
            fun x hx => ht x (by simp [hx])⟩)
        simpa [bind, Except.bind] using hr

theorem Matches.pair_eq {D : NodeId → Prop} {f : NodeId → NodeId} (hf : Matches known nodes env D f)
    {p : Pairing} (hp : ∀ x ∈ p, D x.1 ∧ f x.1 = x.2) {a : NodeId} (ha : D a) {x : NodeId × NodeId}
    (hx : x ∈ p) (h : x.1 = a ∨ x.2 = f a) : x = (a, f a) := by
  obtain ⟨hd, he⟩ := hp x hx
  have h1 : x.1 = a := by
    rcases h with h | h
    · exact h
    · exact hf.injective x.1 a hd ha (he.trans h)
  exact Prod.ext h1 (by rw [← he, h1])

theorem paired_none {a b : NodeId} {rest : List (NodeId × NodeId)} {p : Pairing}
    (h : ¬ ∀ x ∈ p, x.1 = a ∨ x.2 = b → x = (a, b)) :
    Paired known nodes env ((a, b) :: rest) p (.ok none) := by
  refine ⟨by simp, fun _ => ⟨none, rfl⟩, ?_⟩
  intro D f hf hp ht
  obtain ⟨hd, he⟩ := ht (a, b) (by simp)
  obtain rfl : f a = b := he
  exact absurd (fun x hx => hf.pair_eq hp hd hx) h

/-- Pairing up has one outcome whatever types are remembered, and that outcome is right. -/
theorem finds_pairUp (known : Types) (nodes : Array Node) (env : Env)
    (todo : List (NodeId × NodeId)) (p : Pairing) :
    ∃ r, Typing.Finds known nodes env (pairUp nodes env todo p) r ∧
      Paired known nodes env todo p r := by
  induction todo, p using pairUp.induct nodes with
  | case1 p =>
    rw [pairUp]
    exact ⟨_, Typing.Finds.pure _, paired_nil p⟩
  | case2 p a b rest x y hy hx he ih =>
    obtain ⟨r, hr, hp⟩ := ih
    rw [pairUp, hx, hy]
    simp only [he, and_self, if_true]
    exact ⟨r, hr, hp.skip (he.1 ▸ Pairing.mem_of_image? hx)⟩
  | case3 p a b rest x y hy hx he =>
    rw [pairUp, hx, hy]
    simp only [he, if_false]
    refine ⟨_, Typing.Finds.pure _, paired_none fun h => he ?_⟩
    have hax := h _ (Pairing.mem_of_image? hx) (.inl rfl)
    have hyb := h _ (Pairing.mem_of_preimage? hy) (.inr rfl)
    exact ⟨(Prod.ext_iff.1 hax).2, (Prod.ext_iff.1 hyb).1⟩
  | case4 p a b rest hb ha ih =>
    obtain ⟨r, hr, hp⟩ := ih
    rw [pairUp, ha, hb]
    refine ⟨_, ?_, hp.add ha hb⟩
    refine (finds_corresponds a b).bind fun c _ => ?_
    cases c with
    | false => exact Typing.Finds.pure none
    | true => exact hr
  | case5 p a b rest hsome hnone =>
    rw [pairUp]
    cases ha : p.image? a with
    | none =>
      cases hb : p.preimage? b with
      | none => exact absurd hb (hnone ha)
      | some y =>
        refine ⟨_, Typing.Finds.pure _, paired_none fun h => ?_⟩
        have hyb := Pairing.mem_of_preimage? hb
        rw [h _ hyb (.inr rfl)] at hyb
        exact Pairing.image?_eq_none ha _ hyb rfl
    | some x =>
      cases hb : p.preimage? b with
      | some y => exact absurd hb (hsome x y ha)
      | none =>
        refine ⟨_, Typing.Finds.pure _, paired_none fun h => ?_⟩
        have hax := Pairing.mem_of_image? ha
        rw [h _ hax (.inl rfl)] at hax
        exact Pairing.preimage?_eq_none hb _ hax rfl

theorem Corresponding.length_operands (ho : Arena.Ordered nodes) {a b : NodeId}
    (h : Corresponding known nodes env a b) :
    ((Arena.dag nodes).operands a).length = ((Arena.dag nodes).operands b).length := by
  obtain ⟨m, n, hm, hn, hl, _⟩ := h.alike
  change (Arena.operandsOf nodes a).length = (Arena.operandsOf nodes b).length
  rw [Arena.operandsOf_eq ho hm, Arena.operandsOf_eq ho hn, hl.length_operands]

theorem map_eq_of_zip {f : NodeId → NodeId} {l l' : List NodeId} (hl : l.length = l'.length)
    (h : ∀ x ∈ l.zip l', f x.1 = x.2) : l.map f = l' := by
  induction l generalizing l' with
  | nil => exact (List.eq_nil_of_length_eq_zero hl.symm).symm
  | cons x l ih =>
    cases l' with
    | nil => simp at hl
    | cons y l' =>
      have hxy : f x = y := h (x, y) (by simp)
      rw [List.map_cons, hxy, ih (by simpa using hl) fun z hz => h z (by simp [hz])]

/-- A sound pairing to which nothing is left to add is a renaming of what its nodes reach. -/
theorem Pairing.Sound.toMatches (ho : Arena.Ordered nodes) {q : Pairing}
    (h : q.Sound known nodes env []) {a b : NodeId} (hab : (a, b) ∈ q) :
    ∃ f, f a = b ∧ Matches known nodes env ((Arena.dag nodes).Reaches a) f := by
  let f (x : NodeId) : NodeId := (q.image? x).getD x
  have hf : ∀ x ∈ q, f x.1 = x.2 := by
    intro x hx
    cases hi : q.image? x.1 with
    | none => exact absurd rfl (image?_eq_none hi x hx)
    | some y =>
      have hy : y = x.2 := (h.oneToOne _ (mem_of_image? hi) x hx).1 rfl
      simp only [f, hi, Option.getD_some, hy]
  have hops : ∀ x ∈ q, (Arena.dag nodes).operands x.2 = ((Arena.dag nodes).operands x.1).map f := by
    intro x hx
    refine (map_eq_of_zip ((h.corresponding x hx).length_operands ho) fun y hy => ?_).symm
    exact hf y (by simpa using h.operands x hx y hy)
  have hreach : ∀ x, (Arena.dag nodes).Reaches a x → (x, f x) ∈ q := by
    intro x hx
    induction hx with
    | refl => rwa [hf _ hab]
    | tail _ hz ih =>
      have hzip := h.operands _ ih (_, f _) (by
        rw [hops _ ih, ← List.map_prod_left_eq_zip]
        exact List.mem_map_of_mem hz)
      simpa using hzip
  refine ⟨f, hf _ hab, ⟨?_, ?_, ?_⟩, ?_⟩
  · exact fun x hx y hy => hx.trans (.operand hy)
  · exact fun x hx => hops _ (hreach x hx)
  · exact fun x y hx hy he => (h.oneToOne _ (hreach x hx) _ (hreach y hy)).2 he
  · exact fun x hx => h.corresponding _ (hreach x hx)

/-- Comparison of shapes has one outcome whatever types are remembered. If it finds one shape,
the nodes of the two expressions match; if it finds none, no renaming makes them match. -/
theorem finds_sameShape (known : Types) (env : Env) (ho : Arena.Ordered nodes) (a b : NodeId) :
    ∃ r, Typing.Finds known nodes env (sameShape nodes env a b) r ∧
      (r = .ok true → ∃ f, f a = b ∧ Matches known nodes env ((Arena.dag nodes).Reaches a) f) ∧
      (Resolved known nodes env a → Resolved known nodes env b → ∃ c, r = .ok c) ∧
      (r = .ok false → ∀ f, f a = b →
        ¬ Matches known nodes env ((Arena.dag nodes).Reaches a) f) := by
  obtain ⟨r, hr, hp⟩ := finds_pairUp known nodes env [(a, b)] []
  refine ⟨r >>= fun o => .ok o.isSome, hr.bind fun o _ => Typing.Finds.pure _, ?_, ?_, ?_⟩
  · intro he
    cases r with
    | error e => simp [bind, Except.bind] at he
    | ok o =>
      cases o with
      | none => simp [bind, Except.bind] at he
      | some q =>
        obtain ⟨hq, _, htq, _⟩ := hp.sound q rfl ⟨by simp [Pairing.OneToOne], by simp, by simp⟩
        exact hq.toMatches ho (htq (a, b) (by simp))
  · intro ha hb
    obtain ⟨o, rfl⟩ := hp.answers (by simp [ha, hb])
    exact ⟨_, rfl⟩
  · intro he f hfa hf
    refine hp.complete _ f hf (by simp) (by simpa using ⟨.refl _ a, hfa⟩) ?_
    cases r with
    | error e => simp [bind, Except.bind] at he
    | ok o => simpa [bind, Except.bind] using he

/-- An isomorphism between what `a` and what `b` reaches: operands go to operands in order, and
nothing changes but the values of literals. -/
structure Isomorphism (known : Types) (nodes : Array Node) (env : Env) (a b : NodeId)
    (f : NodeId → NodeId) : Prop where
  root : f a = b
  bijOn : Set.BijOn f {x | (Arena.dag nodes).Reaches a x} {y | (Arena.dag nodes).Reaches b y}
  alike : ∀ x, (Arena.dag nodes).Reaches a x → ∃ m n, nodes[x]? = some m ∧
    nodes[f x]? = some n ∧ m.Alike n ∧ n.operands = m.operands.map f
  inputs : ∀ x n, (Arena.dag nodes).Reaches a x → nodes[x]? = some (.input n) →
    typeFrom known nodes env (f x) = typeFrom known nodes env x

theorem Matches.isomorphism (ho : Arena.Ordered nodes) {a b : NodeId} {f : NodeId → NodeId}
    (hf : Matches known nodes env ((Arena.dag nodes).Reaches a) f) (hab : f a = b) :
    Isomorphism known nodes env a b f := by
  subst hab
  have hreach := fun y => hf.toRenames.reaches_image_iff (y := y) (.refl _ a)
  refine ⟨rfl, ⟨?_, ?_, ?_⟩, ?_, fun x n hx hn => (hf.corresponding x hx).inputs n hn⟩
  · exact fun x hx => (hreach _).2 ⟨x, hx, rfl⟩
  · exact fun x hx y hy he => hf.injective x y hx hy he
  · exact fun y hy => (hreach y).1 hy
  · intro x hx
    obtain ⟨m, n, hm, hn, hl, _⟩ := (hf.corresponding x hx).alike
    have hops : Arena.operandsOf nodes (f x) = (Arena.operandsOf nodes x).map f := hf.operands x hx
    rw [Arena.operandsOf_eq ho hm, Arena.operandsOf_eq ho hn] at hops
    exact ⟨m, n, hm, hn, hl, hops⟩

theorem Isomorphism.toMatches (ho : Arena.Ordered nodes) {a b : NodeId} {f : NodeId → NodeId}
    (h : Isomorphism known nodes env a b f)
    (hk : ∀ x n, (Arena.dag nodes).Reaches a x → nodes[x]? = some n → n.readsKernel = false) :
    Matches known nodes env ((Arena.dag nodes).Reaches a) f := by
  refine ⟨⟨fun x hx y hy => hx.trans (.operand hy), ?_, fun x y hx hy he => ?_⟩, ?_⟩
  · intro x hx
    obtain ⟨m, n, hm, hn, _, hops⟩ := h.alike x hx
    change Arena.operandsOf nodes (f x) = (Arena.operandsOf nodes x).map f
    rw [Arena.operandsOf_eq ho hm, Arena.operandsOf_eq ho hn, hops]
  · exact h.bijOn.injOn hx hy he
  · intro x hx
    obtain ⟨m, n, hm, hn, hl, _⟩ := h.alike x hx
    exact ⟨⟨m, n, hm, hn, hl, hk x m hx hm⟩, fun i hi => h.inputs x i hx hi⟩

theorem Matches.readsKernel {a b : NodeId} {f : NodeId → NodeId}
    (hf : Matches known nodes env ((Arena.dag nodes).Reaches a) f) (hab : f a = b) {x : NodeId}
    (hx : (Arena.dag nodes).Reaches a x ∨ (Arena.dag nodes).Reaches b x) {n : Node}
    (hn : nodes[x]? = some n) : n.readsKernel = false := by
  subst hab
  rcases hx with hx | hx
  · obtain ⟨m, _, hm, _, _, hk⟩ := (hf.corresponding x hx).alike
    obtain rfl : m = n := by simpa [hm] using hn
    exact hk
  · obtain ⟨y, hy, rfl⟩ := (hf.toRenames.reaches_image_iff (.refl _ a)).1 hx
    obtain ⟨m, m', _, hm', hl, hk⟩ := (hf.corresponding y hy).alike
    obtain rfl : m' = n := by simpa [hm'] using hn
    rw [hl.readsKernel, hk]

theorem resolved_of_inputs (ho : Arena.Ordered nodes) {x : NodeId} (hx : x < nodes.size)
    (henv : ∀ y n, (Arena.dag nodes).Reaches x y → nodes[y]? = some (.input n) →
      ∃ t, env.input n = .ok t) : Resolved known nodes env x := by
  intro y hy
  obtain ⟨n, hn⟩ : ∃ n, nodes[y]? = some n := ⟨_, Array.getElem?_eq_getElem (hy.le.trans_lt hx)⟩
  refine ⟨n, hn, ?_⟩
  intro hi
  cases n <;> simp only [Node.isInput, Bool.false_eq_true] at hi
  rename_i i
  obtain ⟨t, ht⟩ := henv y i hy hn
  cases hy' : known[y]? with
  | some u => exact ⟨u, typeFrom_known hy'⟩
  | none =>
    refine ⟨t, ?_⟩
    rw [typeFrom_unknown hy', Arena.find?_eq ho hn]
    simp [Node.typeBy, ht, orDefect, pure, Except.pure]

/-- Comparison of shapes decides whether two expressions are isomorphic, provided that they do not
read variables or tables. -/
theorem sameShape_decides_isomorphism (a b : NodeId) (types : Types) (ho : Arena.Ordered nodes)
    (ha : a < nodes.size) (hb : b < nodes.size)
    (henv : ∀ x n, ((Arena.dag nodes).Reaches a x ∨ (Arena.dag nodes).Reaches b x) →
      nodes[x]? = some (.input n) → ∃ t, env.input n = .ok t) :
    ∃ same types', sameShape nodes env a b types = .ok same types' ∧
      (same = true ↔
        (∀ x n, ((Arena.dag nodes).Reaches a x ∨ (Arena.dag nodes).Reaches b x) →
          nodes[x]? = some n → n.readsKernel = false) ∧
        ∃ f, Isomorphism types nodes env a b f) := by
  obtain ⟨r, hr, hsound, hanswers, hcomplete⟩ := finds_sameShape types env ho a b
  obtain ⟨same, rfl⟩ := hanswers
    (resolved_of_inputs ho ha fun y n hy hn => henv y n (.inl hy) hn)
    (resolved_of_inputs ho hb fun y n hy hn => henv y n (.inr hy) hn)
  obtain ⟨types', _, hrun⟩ := hr types (coherent_self types nodes env)
  refine ⟨same, types', hrun, ?_⟩
  constructor
  · rintro rfl
    obtain ⟨f, hab, hf⟩ := hsound rfl
    exact ⟨fun x n hx hn => hf.readsKernel hab hx hn, f, hf.isomorphism ho hab⟩
  · rintro ⟨hk, f, hf⟩
    by_contra hne
    obtain rfl : same = false := by simpa using hne
    exact hcomplete rfl f hf.root (hf.toMatches ho fun x n hx hn => hk x n (.inl hx) hn)

/-- Two weighted sums, a square and a product. -/
def weightedSums : Array Node := #[.input 0, .input 1, .literal (.vec [⟨1⟩, ⟨2⟩]),
  .literal (.vec [⟨3⟩, ⟨4⟩]), .binary .mul 0 2, .binary .mul 1 3, .reduce .sum 4, .reduce .sum 5,
  .binary .mul 0 0, .binary .mul 0 1]

/-- Surroundings in which each neuron reads two reals. -/
def pairsOfReals : Env := { Env.closed with input := fun _ => .ok (.vectorOf .real 2) }

theorem weightedSums_isomorphic : Arena.Ordered weightedSums ∧
    (∃ f, Isomorphism ∅ weightedSums pairsOfReals 6 7 f) ∧
      ¬ ∃ f, Isomorphism ∅ weightedSums pairsOfReals 8 9 f := by
  have ho : Arena.Ordered weightedSums := by decide +kernel
  have hreads : ∀ n ∈ weightedSums, n.readsKernel = false := by decide +kernel
  have hsame (a b : NodeId) (ha : a < weightedSums.size) (hb : b < weightedSums.size) :
      (match sameShape weightedSums pairsOfReals a b ∅ with
        | .ok same _ => same
        | .error _ _ => false) = true ↔ ∃ f, Isomorphism ∅ weightedSums pairsOfReals a b f := by
    have hinput (n : NeuronId) : ∃ t, pairsOfReals.input n = .ok t := ⟨.vectorOf .real 2, rfl⟩
    obtain ⟨same, types', hrun, hiff⟩ := sameShape_decides_isomorphism a b ∅ ho ha hb
      fun _ n _ _ => hinput n
    rw [hrun, hiff]
    exact and_iff_right fun x n _ hn => hreads n (Array.mem_of_getElem? hn)
  refine ⟨ho, ?_, ?_⟩
  · rw [← hsame 6 7 (by decide) (by decide)]
    decide +kernel
  · rw [← hsame 8 9 (by decide) (by decide)]
    decide +kernel

end

end Synapse
