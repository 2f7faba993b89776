import Mathlib.Tactic
import Synapse.Lowering.Recipe
import Synapse.Proofs.Grouping
import Synapse.Proofs.Semantics

namespace Synapse

theorem Ty.extent?_eq_some {t : Ty} {x : Extent} : t.extent? = some x ↔ t = x.ty := by
  constructor
  · intro h
    match t with
    | .scalar s => cases h; rfl
    | .vector s (some n) => cases h; rfl
    | .vector s none => cases h
  · rintro rfl
    cases x <;> rfl

/-- The literals of an expression by their nodes. -/
def literalIds (nodes : Array Node) (root : NodeId) : List NodeId :=
  (Arena.literals nodes root).map (·.1)

/-- The nodes of an expression in the order in which they are computed. -/
abbrev Network.order (net : Network) (root : NodeId) : List NodeId :=
  (Arena.dag net.arena.nodes).postorder root

/-- The line that belongs to a node of an expression. -/
structure LineOf (net : Network) (root id : NodeId) (l : Line) : Prop where
  step : ∃ n, net.arena.nodes[id]? = some n ∧
    n.step? (net.order root).idxOf ((literalIds net.arena.nodes root).idxOf id) = some l.step
  type : typeOf net.arena.nodes net.env id = .ok l.extent.ty

/-- The recipe of an expression, node by node. -/
def RecipeOf (net : Network) (root : NodeId) (r : Recipe) : Prop :=
  List.Forall₂ (LineOf net root) (net.order root) r

namespace Pass.Answers

variable {net : Network}

theorem typeOf (id : NodeId) :
    Answers net (Pass.typeOf id)
      (Gives fun t => Synapse.typeOf net.arena.nodes net.env id = .ok t) := by
  refine bindGives
    (Q := fun r => ∀ t, r = .ok t → Synapse.typeOf net.arena.nodes net.env id = .ok t) ?_
    fun r hr => ?_
  · refine (infer id).attempt ?_ ?_ ?_
    · rintro t ht r ⟨⟩ u ⟨⟩
      exact ht.symm
    · rintro e _ r ⟨⟩ u ⟨⟩
    · rintro d _ r ⟨⟩
  · cases r with
    | error e => exact throw (by rintro t ⟨⟩)
    | ok t =>
      refine pure ?_
      rintro u ⟨⟩
      exact hr t rfl

theorem recipeOf (root : NodeId) :
    Answers net (Pass.recipeOf root) (Gives (RecipeOf net root)) := by
  refine network (fun _ => rfl) (mapM fun id _ => ?_)
  refine (typeOf id).bindGives fun t ht => network (fun _ => rfl) ?_
  simp only
  split
  · exact throw (by rintro l ⟨⟩)
  · exact throw (by rintro l ⟨⟩)
  · rename_i step x hstep hx
    refine pure ?_
    rintro l ⟨⟩
    exact ⟨Option.bind_eq_some_iff.1 hstep, by rw [ht, Ty.extent?_eq_some.1 hx]⟩

end Pass.Answers

theorem Node.Alike.literal?_isSome {m n : Node} (h : m.Alike n) :
    m.literal?.isSome = n.literal?.isSome := by
  cases h <;> rfl

theorem literalIds_eq (nodes : Array Node) (root : NodeId) :
    literalIds nodes root = ((Arena.dag nodes).preorder root).filter fun (id : NodeId) =>
      (nodes[id]?.bind Node.literal?).isSome := by
  rw [literalIds, Arena.literals, List.map_filterMap, ← List.filterMap_eq_filter]
  refine congrArg (fun g => List.filterMap g _) (funext fun id => ?_)
  cases h : nodes[id]?.bind Node.literal? <;> simp [Option.guard, h]

theorem reaches_of_mem_literalIds {nodes : Array Node} {root id : NodeId}
    (h : id ∈ literalIds nodes root) : (Arena.dag nodes).Reaches root id := by
  rw [literalIds_eq] at h
  exact Dag.mem_preorder.1 (List.mem_filter.1 h).1

/-- A renaming that takes each node in `D` to a node of another arena that is like it. Inputs keep
their types. -/
structure Likens (nodes : Array Node) (env : Env) (nodes' : Array Node) (env' : Env)
    (D : NodeId → Prop) (f : NodeId → NodeId) : Prop
    extends (Arena.dag nodes).Renames (Arena.dag nodes') D f where
  alike : ∀ x, D x → ∃ m n, nodes[x]? = some m ∧ nodes'[f x]? = some n ∧ m.Alike n ∧
    m.readsKernel = false
  inputs : ∀ x i, D x → nodes[x]? = some (.input i) → typeOf nodes' env' (f x) = typeOf nodes env x

theorem matches_iff_likens {nodes : Array Node} {env : Env} {D : NodeId → Prop}
    {f : NodeId → NodeId} : Matches ∅ nodes env D f ↔ Likens nodes env nodes env D f := by
  constructor
  · intro h
    exact ⟨h.toRenames, fun x hx => (h.corresponding x hx).alike,
      fun x i hx => (h.corresponding x hx).inputs i⟩
  · intro h
    exact ⟨h.toRenames, fun x hx => ⟨h.alike x hx, fun i => h.inputs x i hx⟩⟩

namespace Likens

variable {nodes nodes' : Array Node} {env env' : Env} {D : NodeId → Prop} {f : NodeId → NodeId}

/-- Nodes that are alike have operands that are alike. -/
theorem node (ho : Arena.Ordered nodes) (ho' : Arena.Ordered nodes')
    (hf : Likens nodes env nodes' env' D f) {x : NodeId} (hx : D x) :
    ∃ m n, nodes[x]? = some m ∧ nodes'[f x]? = some n ∧ m.Alike n ∧ m.readsKernel = false ∧
      n.operands = m.operands.map f ∧ ∀ y ∈ m.operands, D y ∧ y < x := by
  obtain ⟨m, n, hm, hn, hl, hk⟩ := hf.alike x hx
  have hops : Arena.operandsOf nodes' (f x) = (Arena.operandsOf nodes x).map f := hf.operands x hx
  have hclosed : ∀ y ∈ Arena.operandsOf nodes x, D y := hf.closed x hx
  rw [Arena.operandsOf_eq ho hm] at hops hclosed
  rw [Arena.operandsOf_eq ho' hn] at hops
  exact ⟨m, n, hm, hn, hl, hk, hops, fun y hy => ⟨hclosed y hy, ho x m hm y hy⟩⟩

theorem typeOf_eq (ho : Arena.Ordered nodes) (ho' : Arena.Ordered nodes')
    (hf : Likens nodes env nodes' env' D f) {x : NodeId} (hx : D x) :
    typeOf nodes' env' (f x) = typeOf nodes env x := by
  induction x using Nat.strong_induction_on with
  | _ x ih =>
  obtain ⟨m, n, hm, hn, hl, hk, hops, hlt⟩ := hf.node ho ho' hx
  have hih : ∀ y ∈ m.operands, typeOf nodes' env' (f y) = typeOf nodes env y :=
    fun y hy => ih y (hlt y hy).2 (hlt y hy).1
  by_cases hi : m.isInput = true
  · cases m <;> simp only [Node.isInput, Bool.false_eq_true] at hi
    exact hf.inputs x _ hx hm
  · rw [typeOf_node ho hm, typeOf_node ho' hn]
    cases hl with
    | int _ _ => rfl
    | bool _ _ => rfl
    | real _ _ => rfl
    | vec xs ys h => simp only [Node.typeBy, Literal.ty, h]
    | unary op y y' =>
      obtain rfl : y' = f y := by simpa [Node.operands] using hops
      exact hih y (by simp [Node.operands])
    | binary op l r l' r' =>
      obtain ⟨rfl, rfl⟩ : l' = f l ∧ r' = f r := by simpa [Node.operands] using hops
      simp only [Node.typeBy, hih l (by simp [Node.operands]), hih r (by simp [Node.operands])]
    | input _ _ => simp [Node.isInput] at hi
    | reduce kind y y' =>
      obtain rfl : y' = f y := by simpa [Node.operands] using hops
      simp only [Node.typeBy, hih y (by simp [Node.operands])]
    | activate name y y' =>
      obtain rfl : y' = f y := by simpa [Node.operands] using hops
      simp only [Node.typeBy, hih y (by simp [Node.operands])]
    | var _ _ => simp [Node.readsKernel] at hk
    | element _ _ _ _ => simp [Node.readsKernel] at hk
    | entry _ _ _ _ => simp [Node.readsKernel] at hk

theorem step?_eq (ho : Arena.Ordered nodes) (ho' : Arena.Ordered nodes')
    (hf : Likens nodes env nodes' env' D f) {x : NodeId} (hx : D x) {order : List NodeId}
    (horder : ∀ y ∈ order, D y) (rank : Nat) {m n : Node} (hm : nodes[x]? = some m)
    (hn : nodes'[f x]? = some n) :
    n.step? (order.map f).idxOf rank = m.step? order.idxOf rank := by
  obtain ⟨m', n', hm', hn', hl, hk, hops, hlt⟩ := hf.node ho ho' hx
  obtain rfl : m' = m := by simpa [hm'] using hm
  obtain rfl : n' = n := by simpa [hn'] using hn
  have hidx : ∀ y ∈ m'.operands, (order.map f).idxOf (f y) = order.idxOf y :=
    fun y hy => hf.toRenames.idxOf_map (hlt y hy).1 horder
  cases hl with
  | int _ _ => rfl
  | bool _ _ => rfl
  | real _ _ => rfl
  | vec _ _ _ => rfl
  | unary op y y' =>
    obtain rfl : y' = f y := by simpa [Node.operands] using hops
    simp only [Node.step?, hidx y (by simp [Node.operands])]
  | binary op l r l' r' =>
    obtain ⟨rfl, rfl⟩ : l' = f l ∧ r' = f r := by simpa [Node.operands] using hops
    cases op <;>
      simp only [Node.step?, hidx l (by simp [Node.operands]), hidx r (by simp [Node.operands])]
  | input _ _ => rfl
  | reduce kind y y' =>
    obtain rfl : y' = f y := by simpa [Node.operands] using hops
    simp only [Node.step?, hidx y (by simp [Node.operands])]
  | activate name y y' =>
    obtain rfl : y' = f y := by simpa [Node.operands] using hops
    simp only [Node.step?, hidx y (by simp [Node.operands])]
  | var _ _ => rfl
  | element _ _ _ _ => rfl
  | entry _ _ _ _ => rfl

theorem literalIds_eq {v : NodeId}
    (hf : Likens nodes env nodes' env' ((Arena.dag nodes).Reaches v) f) :
    literalIds nodes' (f v) = (literalIds nodes v).map f := by
  rw [Synapse.literalIds_eq, Synapse.literalIds_eq, hf.toRenames.preorder (.refl _ v),
    List.filter_map]
  refine congrArg (List.map f) (List.filter_congr fun x hx => ?_)
  obtain ⟨m, n, hm, hn, hl, _⟩ := hf.alike x (Dag.mem_preorder.1 hx)
  simp only [Function.comp_apply, hm, hn, Option.bind_some, hl.literal?_isSome]

end Likens

section

variable {net net' : Network} {v : NodeId} {f : NodeId → NodeId}

theorem Likens.lineOf_iff (ho : Arena.Ordered net.arena.nodes)
    (ho' : Arena.Ordered net'.arena.nodes)
    (hf : Likens net.arena.nodes net.env net'.arena.nodes net'.env
      ((Arena.dag net.arena.nodes).Reaches v) f) {x : NodeId}
    (hx : (Arena.dag net.arena.nodes).Reaches v x) {l : Line} :
    LineOf net' (f v) (f x) l ↔ LineOf net v x l := by
  have horder : net'.order (f v) = (net.order v).map f := hf.toRenames.postorder (.refl _ v)
  obtain ⟨m, n, hm, hn, _⟩ := hf.alike x hx
  have hstep := hf.step?_eq ho ho' hx (fun y hy => Dag.mem_postorder.1 hy)
    ((literalIds net.arena.nodes v).idxOf x) hm hn
  have hrank : (literalIds net'.arena.nodes (f v)).idxOf (f x) =
      (literalIds net.arena.nodes v).idxOf x := by
    rw [hf.literalIds_eq, hf.toRenames.idxOf_map hx fun y => reaches_of_mem_literalIds]
  constructor
  · rintro ⟨⟨n', hn', hl⟩, htype⟩
    obtain rfl : n = n' := Option.some.inj (hn.symm.trans hn')
    rw [horder, hrank, hstep] at hl
    exact ⟨⟨m, hm, hl⟩, by rw [← htype, hf.typeOf_eq ho ho' hx]⟩
  · rintro ⟨⟨m', hm', hl⟩, htype⟩
    obtain rfl : m = m' := Option.some.inj (hm.symm.trans hm')
    refine ⟨⟨n, hn, ?_⟩, by rw [← htype, hf.typeOf_eq ho ho' hx]⟩
    rw [horder, hrank, hstep, hl]

/-- Expressions that are alike have one recipe. -/
theorem Likens.recipeOf_iff (ho : Arena.Ordered net.arena.nodes)
    (ho' : Arena.Ordered net'.arena.nodes)
    (hf : Likens net.arena.nodes net.env net'.arena.nodes net'.env
      ((Arena.dag net.arena.nodes).Reaches v) f) {r : Recipe} :
    RecipeOf net' (f v) r ↔ RecipeOf net v r := by
  have horder : net'.order (f v) = (net.order v).map f := hf.toRenames.postorder (.refl _ v)
  rw [RecipeOf, RecipeOf, horder, List.forall₂_map_left_iff, List.forall₂_iff_get,
    List.forall₂_iff_get]
  refine and_congr_right fun _ => forall_congr' fun i => forall₂_congr fun hi hi' => ?_
  exact hf.lineOf_iff ho ho' (Dag.mem_postorder.1 (List.get_mem _ _))

end

theorem RecipeOf.of_matches {net : Network} (ho : Arena.Ordered net.arena.nodes) {v : NodeId}
    {f : NodeId → NodeId} {r : Recipe}
    (hf : Matches ∅ net.arena.nodes net.env ((Arena.dag net.arena.nodes).Reaches v) f)
    (h : RecipeOf net (f v) r) : RecipeOf net v r :=
  ((matches_iff_likens.1 hf).recipeOf_iff ho ho).1 h

/-- The rule for the type of a line, given the types of the literals and of the inputs, and those of
the earlier lines. -/
def Line.Typed (literals : List Ty) (input : Ty) (done : List Extent) (l : Line) : Prop :=
  match l.step with
  | .literal rank => literals[rank]? = some l.extent.ty
  | .unary _ x => done[x]? = some l.extent
  | .binary _ x y =>
    ∃ a b, done[x]? = some a ∧ done[y]? = some b ∧ a.ty.join b.ty = some l.extent.ty
  | .input => input = l.extent.ty
  | .reduce _ x => ∃ s n, done[x]? = some (.vector s (n + 1)) ∧ l.extent = .scalar s
  | .activate _ x => ∃ s, done[x]? = some (.scalar s) ∧ l.extent = .scalar s

def Recipe.Typed (literals : List Ty) (input : Ty) : List Extent → Recipe → Prop
  | _, [] => True
  | done, l :: rest =>
    l.Typed literals input done ∧ Recipe.Typed literals input (done ++ [l.extent]) rest

theorem Extent.ty_injective {x y : Extent} (h : x.ty = y.ty) : x = y := by
  cases x <;> cases y <;> simp_all [Extent.ty]

theorem Rule.join_eq_ok {t u v : Ty} : Rule.join t u = .ok v ↔ t.join u = some v := by
  unfold Rule.join
  split <;> simp_all

section

variable {net : Network} {root : NodeId} {before after : List NodeId} {id : NodeId} {n : Node}

/-- The operands of a node in the order of computation are found among the nodes before it. -/
theorem getElem?_before (ho : Arena.Ordered net.arena.nodes)
    (h : net.order root = before ++ id :: after) (hn : net.arena.nodes[id]? = some n) {x : NodeId}
    (hx : x ∈ n.operands) : before[(net.order root).idxOf x]? = some x := by
  have hmem : x ∈ before := by
    refine ((Arena.dag net.arena.nodes).visited_postorder root).operandsFirst before id after h x ?_
    change x ∈ Arena.operandsOf net.arena.nodes id
    rwa [Arena.operandsOf_eq ho hn]
  rw [h, List.idxOf_append_of_mem hmem]
  have hlt := List.idxOf_lt_length_of_mem hmem
  rw [List.getElem?_eq_getElem hlt, List.getElem_idxOf hlt]

theorem getElem?_literals {nodes : Array Node} {c : Literal}
    (hreach : (Arena.dag nodes).Reaches root id) (hc : nodes[id]? = some (.literal c)) :
    (Arena.literals nodes root)[(literalIds nodes root).idxOf id]? = some (id, c) := by
  have hmem : id ∈ literalIds nodes root := by
    rw [literalIds_eq, List.mem_filter]
    exact ⟨Dag.mem_preorder.2 hreach, by simp [hc, Node.literal?]⟩
  have hlt := List.idxOf_lt_length_of_mem hmem
  have hget : (literalIds nodes root)[(literalIds nodes root).idxOf id]? = some id := by
    rw [List.getElem?_eq_getElem hlt, List.getElem_idxOf hlt]
  rw [literalIds, List.getElem?_map] at hget
  obtain ⟨⟨i, d⟩, hp, rfl⟩ := Option.map_eq_some_iff.1 hget
  rw [literalIds, hp]
  obtain ⟨j, _, hj⟩ := List.mem_filterMap.1 (List.mem_of_getElem? hp)
  obtain ⟨e, he, hje⟩ := Option.map_eq_some_iff.1 hj
  obtain ⟨rfl, rfl⟩ : j = i ∧ e = d := by simpa using hje
  simp_all [Node.literal?]

theorem reaches_of_order (h : net.order root = before ++ id :: after) :
    (Arena.dag net.arena.nodes).Reaches root id :=
  Dag.mem_postorder.1 (by rw [← Network.order, h]; simp)

theorem LineOf.typed (ho : Arena.Ordered net.arena.nodes) {m : NeuronId} {x : Neuron}
    (hx : net.neurons[m]? = some x) (hown : ReadsOwn net.arena.nodes m root)
    (h : net.order root = before ++ id :: after) {l : Line} {done : Recipe}
    (hl : LineOf net root id l) (hdone : List.Forall₂ (LineOf net root) before done) :
    l.Typed ((Arena.literals net.arena.nodes root).map (·.2.ty)) x.inputTy
      (done.map (·.extent)) := by
  obtain ⟨⟨n, hn, hstep⟩, htype⟩ := hl
  obtain ⟨step, extent⟩ := l
  have hreach := reaches_of_order h
  have hop : ∀ y ∈ n.operands, ∃ z : Extent,
      (done.map (·.extent))[(net.order root).idxOf y]? = some z ∧
      typeOf net.arena.nodes net.env y = .ok z.ty := by
    intro y hy
    obtain ⟨k, hk, hline⟩ := forall₂_getElem? hdone (getElem?_before ho h hn hy)
    exact ⟨k.extent, by rw [List.getElem?_map, hk, Option.map_some], hline.type⟩
  rw [typeOf_node ho hn] at htype
  cases n with
  | literal c =>
    obtain rfl := Option.some.inj hstep
    have hty : c.ty = extent.ty := Except.ok.inj htype
    change (List.map _ _)[_]? = _
    rw [List.getElem?_map, getElem?_literals hreach hn, Option.map_some, hty]
  | unary op y =>
    obtain rfl := Option.some.inj hstep
    obtain ⟨z, hz, hzt⟩ := hop y (by simp [Node.operands])
    have hty : z.ty = extent.ty := Except.ok.inj (hzt.symm.trans htype)
    rw [Extent.ty_injective hty] at hz
    exact hz
  | binary op a b =>
    obtain ⟨y, hy, hyt⟩ := hop a (by simp [Node.operands])
    obtain ⟨z, hz, hzt⟩ := hop b (by simp [Node.operands])
    have hjoin : y.ty.join z.ty = some extent.ty := by
      simp only [Node.typeBy, hyt, hzt] at htype
      exact Rule.join_eq_ok.1 (orTypeError_eq_ok.1 htype)
    cases op <;> cases hstep <;> exact ⟨y, z, hy, hz, hjoin⟩
  | input k =>
    obtain rfl := Option.some.inj hstep
    obtain rfl : k = m := hown id k hreach hn
    have hty := orDefect_eq_ok.1 htype
    rw [Network.env_input hx] at hty
    exact Except.ok.inj hty
  | reduce kind y =>
    obtain rfl := Option.some.inj hstep
    obtain ⟨z, hz, hzt⟩ := hop y (by simp [Node.operands])
    simp only [Node.typeBy, hzt] at htype
    have hrule : Rule.reduce z.ty = .ok extent.ty := orTypeError_eq_ok.1 htype
    cases z with
    | scalar s => cases hrule
    | vector s k =>
      cases k with
      | zero => cases hrule
      | succ k =>
        exact ⟨s, k, hz, (Extent.ty_injective (y := .scalar s) (Except.ok.inj hrule.symm))⟩
  | activate name y =>
    obtain rfl := Option.some.inj hstep
    obtain ⟨z, hz, hzt⟩ := hop y (by simp [Node.operands])
    simp only [Node.typeBy, hzt] at htype
    have hrule : Rule.activate name z.ty = .ok extent.ty := orTypeError_eq_ok.1 htype
    cases z with
    | scalar s => exact ⟨s, hz, (Extent.ty_injective (y := .scalar s) (Except.ok.inj hrule.symm))⟩
    | vector s k => cases hrule
  | var v => cases hstep
  | element v y => cases hstep
  | entry t y => cases hstep

theorem typed_rest (ho : Arena.Ordered net.arena.nodes) {m : NeuronId} {x : Neuron}
    (hx : net.neurons[m]? = some x) (hown : ReadsOwn net.arena.nodes m root)
    (h : net.order root = before ++ after) {done rest : Recipe}
    (hdone : List.Forall₂ (LineOf net root) before done)
    (hrest : List.Forall₂ (LineOf net root) after rest) :
    rest.Typed ((Arena.literals net.arena.nodes root).map (·.2.ty)) x.inputTy
      (done.map (·.extent)) := by
  induction hrest generalizing before done with
  | nil => trivial
  | @cons id l after rest hl _ ih =>
    refine ⟨hl.typed ho hx hown h hdone, ?_⟩
    have hdone' : List.Forall₂ (LineOf net root) (before ++ [id]) (done ++ [l]) :=
      List.rel_append hdone (.cons hl .nil)
    simpa using ih (by simpa using h) hdone'

end

/-- The lines of a recipe follow the rules for types. -/
theorem RecipeOf.typed {net : Network} (ho : Arena.Ordered net.arena.nodes) {m : NeuronId}
    {x : Neuron} (hx : net.neurons[m]? = some x) {root : NodeId}
    (hown : ReadsOwn net.arena.nodes m root) {r : Recipe} (h : RecipeOf net root r) :
    r.Typed ((Arena.literals net.arena.nodes root).map (·.2.ty)) x.inputTy [] :=
  typed_rest ho hx hown (List.nil_append (net.order root)).symm .nil h

section

variable {S : Type}

/-- The result of a step, given the literals and inputs and the results of the earlier steps. -/
def Step.value (I : Interpretation S) (literals : List Literal) (input : Option (Datum S))
    (done : List (Datum S)) : Step → Option (Datum S)
  | .literal rank => literals[rank]?.map I.literal
  | .unary op x => done[x]?.map (Datum.map (I.unary op))
  | .binary op x y => do
    let a ← done[x]?
    let b ← done[y]?
    return a.zip (I.binary op) b
  | .input => input
  | .reduce kind x => done[x]?.bind (Datum.fold (I.binary kind.operator))
  | .activate name x => do
    let v ← (← done[x]?).scalar?
    return .scalar (I.activate name v)

/-- The results of all steps, given those of the steps that are done. -/
def Recipe.values (I : Interpretation S) (literals : List Literal) (input : Option (Datum S))
    (done : List (Datum S)) : Recipe → Option (List (Datum S))
  | [] => some done
  | l :: rest => do
    let d ← l.step.value I literals input done
    Recipe.values I literals input (done ++ [d]) rest

/-- The inputs of one neuron; those of all others are not there. -/
def inputsOf (n : NeuronId) (input : Option (Datum S)) : NeuronId → Option (Datum S) :=
  fun m => if m = n then input else none

theorem Node.operand_of_valueBy {I : Interpretation S} {inputs : NeuronId → Option (Datum S)}
    {of : NodeId → Option (Datum S)} {n : Node} {d : Datum S} (h : n.valueBy I inputs of = some d)
    {x : NodeId} (hx : x ∈ n.operands) : ∃ a, of x = some a := by
  cases n <;> simp_all [valueBy, operands, Option.map_eq_some_iff, Option.bind_eq_some_iff]
  case unary =>
    obtain ⟨a, ha, _⟩ := h
    exact ⟨a, ha⟩
  case binary =>
    obtain ⟨a, ha, b, hb, _⟩ := h
    rcases hx with rfl | rfl
    · exact ⟨a, ha⟩
    · exact ⟨b, hb⟩
  all_goals
    obtain ⟨a, ha, _⟩ := h
    exact ⟨a, ha⟩

/-- An expression has a value only if all that it reaches has one. -/
theorem value_of_reaches {nodes : Array Node} (ho : Arena.Ordered nodes) {I : Interpretation S}
    {inputs : NeuronId → Option (Datum S)} {root x : NodeId}
    (hx : (Arena.dag nodes).Reaches root x) {d : Datum S}
    (hd : valueOf nodes I inputs root = some d) : ∃ a, valueOf nodes I inputs x = some a := by
  induction hx with
  | refl => exact ⟨d, hd⟩
  | @tail y z _ hz ih =>
    obtain ⟨a, ha⟩ := ih
    cases hn : nodes[y]? with
    | none =>
      change z ∈ Arena.operandsOf nodes y at hz
      simp [Arena.operandsOf_none hn] at hz
    | some n =>
      change z ∈ Arena.operandsOf nodes y at hz
      rw [Arena.operandsOf_eq ho hn] at hz
      rw [valueOf_node ho hn] at ha
      exact Node.operand_of_valueBy ha hz

section

variable {net : Network} {root : NodeId} {before after : List NodeId} {id : NodeId}
  {I : Interpretation S} {m : NeuronId} {input : Option (Datum S)}

theorem LineOf.value (ho : Arena.Ordered net.arena.nodes) (hown : ReadsOwn net.arena.nodes m root)
    (h : net.order root = before ++ id :: after) {l : Line} (hl : LineOf net root id l)
    {done : List (Datum S)}
    (hdone : before.map (valueOf net.arena.nodes I (inputsOf m input)) = done.map some) :
    l.step.value I ((Arena.literals net.arena.nodes root).map (·.2)) input done =
      valueOf net.arena.nodes I (inputsOf m input) id := by
  obtain ⟨⟨n, hn, hstep⟩, _⟩ := hl
  obtain ⟨step, extent⟩ := l
  have hreach := reaches_of_order h
  have hop : ∀ y ∈ n.operands, done[(net.order root).idxOf y]? =
      valueOf net.arena.nodes I (inputsOf m input) y := by
    intro y hy
    have hy' := congrArg (fun l => l[(net.order root).idxOf y]?) hdone
    simp only [List.getElem?_map, getElem?_before ho h hn hy, Option.map_some] at hy'
    obtain ⟨d, hd, he⟩ := Option.map_eq_some_iff.1 hy'.symm
    rw [hd, ← he]
  rw [valueOf_node ho hn]
  cases n with
  | literal c =>
    obtain rfl := Option.some.inj hstep
    simp only [Step.value, Node.valueBy, List.getElem?_map, getElem?_literals hreach hn,
      Option.map_some]
  | unary op y =>
    obtain rfl := Option.some.inj hstep
    simp only [Step.value, Node.valueBy, hop y (by simp [Node.operands])]
  | binary op a b =>
    have ha := hop a (by simp [Node.operands])
    have hb := hop b (by simp [Node.operands])
    cases op <;> cases hstep <;> simp only [Step.value, Node.valueBy, ha, hb]
  | input k =>
    obtain rfl := Option.some.inj hstep
    obtain rfl : k = m := hown id k hreach hn
    simp only [Step.value, Node.valueBy, inputsOf, if_true]
  | reduce kind y =>
    obtain rfl := Option.some.inj hstep
    simp only [Step.value, Node.valueBy, hop y (by simp [Node.operands])]
  | activate name y =>
    obtain rfl := Option.some.inj hstep
    simp only [Step.value, Node.valueBy, hop y (by simp [Node.operands])]
  | var v => cases hstep
  | element v y => cases hstep
  | entry t y => cases hstep

theorem values_rest (ho : Arena.Ordered net.arena.nodes) (hown : ReadsOwn net.arena.nodes m root)
    (h : net.order root = before ++ after) {done : List (Datum S)} {rest : Recipe}
    (hdone : before.map (valueOf net.arena.nodes I (inputsOf m input)) = done.map some)
    (hrest : List.Forall₂ (LineOf net root) after rest) :
    rest.values I ((Arena.literals net.arena.nodes root).map (·.2)) input done =
      (after.mapM (valueOf net.arena.nodes I (inputsOf m input))).map (done ++ ·) := by
  induction hrest generalizing before done with
  | nil => simp [Recipe.values]
  | @cons id l after rest hl _ ih =>
    rw [Recipe.values, hl.value ho hown h hdone, List.mapM_cons]
    cases hd : valueOf net.arena.nodes I (inputsOf m input) id with
    | none => simp
    | some d =>
      have hdone' : (before ++ [id]).map (valueOf net.arena.nodes I (inputsOf m input)) =
          (done ++ [d]).map some := by
        simp [hdone, hd]
      have hnext := ih (by simpa using h) hdone'
      simp only [Option.bind_eq_bind, Option.bind_some, hnext]
      cases after.mapM (valueOf net.arena.nodes I (inputsOf m input)) <;> simp

end

/-- A recipe, run with the literals and inputs of a neuron, gives the value of its expression. -/
theorem RecipeOf.values_getLast? {net : Network} (ho : Arena.Ordered net.arena.nodes) {m : NeuronId}
    {root : NodeId} (hown : ReadsOwn net.arena.nodes m root) {r : Recipe} (h : RecipeOf net root r)
    (I : Interpretation S) (input : Option (Datum S)) :
    (r.values I ((Arena.literals net.arena.nodes root).map (·.2)) input []).bind List.getLast? =
      valueOf net.arena.nodes I (inputsOf m input) root := by
  rw [values_rest ho hown (List.nil_append (net.order root)).symm rfl h]
  obtain ⟨below, hbelow⟩ : ∃ below, net.order root = below ++ [root] :=
    (Arena.dag net.arena.nodes).postorder_eq_concat root
  rw [hbelow, List.mapM_append]
  cases hroot : valueOf net.arena.nodes I (inputsOf m input) root with
  | none =>
    cases below.mapM (valueOf net.arena.nodes I (inputsOf m input)) <;> simp [hroot]
  | some d =>
    have hall : ∀ x ∈ below, ∃ a, valueOf net.arena.nodes I (inputsOf m input) x = some a := by
      intro x hx
      refine value_of_reaches ho (Dag.mem_postorder.1 ?_) hroot
      change x ∈ net.order root
      simp [hbelow, hx]
    obtain ⟨ds, hds⟩ := exists_mapM_eq_some.2 hall
    simp [hds, hroot]

end

end Synapse
