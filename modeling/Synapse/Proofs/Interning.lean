import Mathlib.Tactic
import Synapse.Proofs.Recipes

namespace Synapse

def Term.literal? : Term → Option Literal
  | literal c => some c
  | _ => none

theorem Term.literal?_node (place : Nat → NodeId) (t : Term) :
    (t.node place).literal? = t.literal? := by
  cases t <;> rfl

/-- Terms that name the same lines and are of one kind, leaves of any value. -/
structure Term.Alike (t t' : Term) : Prop where
  operands : t.operands = t'.operands
  nodes : ∀ place place' : Nat → NodeId, (t.node place).Alike (t'.node place')

namespace Sketch

/-- Sketches that differ in their leaves only. -/
def Alike (s s' : Sketch) : Prop := List.Forall₂ Term.Alike s.lines s'.lines

variable {s s' : Sketch} {nodes nodes' : Array Node} {base base' : NodeId}

/-- The number of the node for a line, if the first node of the sketch has number `base`. -/
def place (s : Sketch) (base : NodeId) (i : Nat) : NodeId := base + s.order.idxOf i

/-- The number of the node for the last line. -/
def root (s : Sketch) (base : NodeId) : NodeId := s.place base s.above.length

/-- A sketch stands in an arena, from `base` on. -/
def Stands (s : Sketch) (nodes : Array Node) (base : NodeId) : Prop :=
  ∀ i ∈ s.order, nodes[s.place base i]? = s.lines[i]?.map (·.node (s.place base))

/-- The literals of a sketch, in the pre-order of its lines. -/
def literals (s : Sketch) : List Literal :=
  (s.dag.preorder s.above.length).filterMap fun i => s.lines[i]?.bind Term.literal?

theorem mem_order {i : Nat} : i ∈ s.order ↔ s.dag.Reaches s.above.length i := Dag.mem_postorder

theorem root_mem_order (s : Sketch) : s.above.length ∈ s.order := mem_order.2 (.refl _ _)

theorem stands_intern (a : Arena) (s : Sketch) : s.Stands (a.intern s).1.nodes a.nodes.size := by
  intro i hi
  have hlines : ∀ j ∈ s.order, ∃ n, s.lines[j]?.map (·.node (s.place a.nodes.size)) = some n := by
    intro j hj
    obtain ⟨t, ht⟩ := s.line_of_mem_order hj
    exact ⟨_, by rw [ht, Option.map_some]⟩
  change (a.nodes ++ (s.nodes s.order a.nodes.size).toArray)[a.nodes.size + s.order.idxOf i]? = _
  rw [Array.getElem?_append_right (Nat.le_add_right _ _), Nat.add_sub_cancel_left,
    List.getElem?_toArray]
  exact (getElem?_filterMap_of_isSome hlines _).trans (by rw [List.getElem?_idxOf hi]; rfl)

namespace Stands

theorem mono (h : s.Stands nodes base) (hnodes : Arena.Extends nodes nodes') :
    s.Stands nodes' base := by
  intro i hi
  obtain ⟨t, ht⟩ := s.line_of_mem_order hi
  have hnode := h i hi
  rw [ht, Option.map_some] at hnode ⊢
  exact hnodes _ _ hnode

theorem node (h : s.Stands nodes base) {i : Nat} (hi : i ∈ s.order) {t : Term}
    (ht : s.lines[i]? = some t) : nodes[s.place base i]? = some (t.node (s.place base)) := by
  rw [h i hi, ht, Option.map_some]

theorem typeOf_place (h : s.Stands nodes base) (ho : Arena.Ordered nodes) {i : Nat}
    (hi : i ∈ s.order) {t : Term} (ht : s.lines[i]? = some t) (env : Env) :
    typeOf nodes env (s.place base i) = (t.node (s.place base)).typeBy env (typeOf nodes env) :=
  typeOf_node ho (h.node hi ht)

/-- The expression is a copy of the sketch, with nodes in the place of lines. -/
theorem renames (h : s.Stands nodes base) (ho : Arena.Ordered nodes) :
    s.dag.Renames (Arena.dag nodes) (s.dag.Reaches s.above.length) (s.place base) := by
  refine ⟨fun i hi x hx => hi.trans (.operand hx), fun i hi => ?_, fun i j hi hj he => ?_⟩
  · obtain ⟨t, ht⟩ := s.line_of_mem_order (mem_order.2 hi)
    change Arena.operandsOf nodes _ = (s.operandsOf i).map _
    rw [Arena.operandsOf_eq ho (h.node (mem_order.2 hi) ht), Term.operands_node, operandsOf, ht]
  · exact (List.idxOf_inj (mem_order.2 hi)).1 (Nat.add_left_cancel he)

theorem reaches_iff (h : s.Stands nodes base) (ho : Arena.Ordered nodes) {x : NodeId} :
    (Arena.dag nodes).Reaches (s.root base) x ↔ ∃ i ∈ s.order, s.place base i = x := by
  simp only [root, (h.renames ho).reaches_image_iff (.refl _ _), mem_order]

theorem literals_eq (h : s.Stands nodes base) (ho : Arena.Ordered nodes) :
    (Arena.literals nodes (s.root base)).map (·.2) = s.literals := by
  rw [Arena.literals, root, (h.renames ho).preorder (.refl _ _), List.map_filterMap,
    List.filterMap_map, literals]
  refine List.filterMap_congr fun i hi => ?_
  obtain ⟨t, ht⟩ := s.line_of_mem_order (mem_order.2 (Dag.mem_preorder.1 hi))
  simp only [Function.comp_apply, h.node (mem_order.2 (Dag.mem_preorder.1 hi)) ht, ht,
    Option.bind_some, Term.literal?_node, Option.map_map]
  cases t.literal? <;> rfl

/-- An expression reads the inputs that its sketch names. -/
theorem readsOwn (h : s.Stands nodes base) (ho : Arena.Ordered nodes) {n : NeuronId}
    (hinputs : ∀ m, .input m ∈ s.lines → m = n) : ReadsOwn nodes n (s.root base) := by
  intro x m hx hm
  obtain ⟨i, hi, rfl⟩ := (h.reaches_iff ho).1 hx
  obtain ⟨t, ht⟩ := s.line_of_mem_order hi
  rw [h.node hi ht, Option.some.injEq] at hm
  cases t <;> simp only [Term.node, reduceCtorEq, Node.input.injEq] at hm
  rw [← hm]
  exact hinputs _ (List.mem_of_getElem? ht)

end Stands

namespace Alike

theorem above_length (h : s.Alike s') : s.above.length = s'.above.length := by
  simpa [lines] using List.Forall₂.length_eq h

theorem dag_eq (h : s.Alike s') : s.dag = s'.dag := by
  have hoperands : s.operandsOf = s'.operandsOf := by
    funext i
    rw [operandsOf, operandsOf]
    cases ht : s.lines[i]? with
    | none =>
      have hle : s'.lines.length ≤ i := h.length_eq ▸ List.getElem?_eq_none_iff.1 ht
      rw [List.getElem?_eq_none hle]
    | some t =>
      obtain ⟨t', ht', halike⟩ := forall₂_getElem? h ht
      rw [ht']
      exact halike.operands
  simp only [dag, hoperands]

/-- Sketches that differ in their leaves only have expressions of one shape, if their inputs have
the same types. -/
theorem exists_matches (h : s.Alike s') (ho : Arena.Ordered nodes) (hs : s.Stands nodes base)
    (hs' : s'.Stands nodes base') {env : Env} (hinputs : ∀ (i : Nat) (n m : NeuronId),
      s.lines[i]? = some (.input n) → s'.lines[i]? = some (.input m) →
        env.input m = env.input n) :
    ∃ f, f (s.root base) = s'.root base' ∧
      Matches ∅ nodes env ((Arena.dag nodes).Reaches (s.root base)) f := by
  -- the renaming leads back to the lines of the one sketch, and from there to the other expression
  obtain ⟨k, hk, hback⟩ := (hs.renames ho).symm
  have hthere : s.dag.Renames (Arena.dag nodes) (s.dag.Reaches s.above.length)
      (s'.place base') := by
    rw [h.dag_eq, h.above_length]
    exact hs'.renames ho
  have hroot : k (s.root base) = s.above.length := hk _ (.refl _ _)
  refine ⟨s'.place base' ∘ k, ?_, hback.trans (hroot.symm ▸ hthere), ?_⟩
  · rw [Function.comp_apply, hroot, h.above_length]
    rfl
  · intro x hx
    obtain ⟨i, hi, rfl⟩ := (hs.reaches_iff ho).1 hx
    have hi' : i ∈ s'.order := by
      rw [mem_order, ← h.dag_eq, ← h.above_length]
      exact mem_order.1 hi
    obtain ⟨t, ht⟩ := s.line_of_mem_order hi
    obtain ⟨t', ht', halike⟩ := forall₂_getElem? h ht
    rw [Function.comp_apply, hk i (mem_order.1 hi)]
    have hnode := hs.node hi ht
    have hnode' := hs'.node hi' ht'
    refine ⟨⟨_, _, hnode, hnode', halike.nodes _ _, by cases t <;> rfl⟩, fun n hn => ?_⟩
    have hplain : t.node (s.place base) = .input n := Option.some.inj (hnode.symm.trans hn)
    have halike := halike.nodes (s.place base) (s'.place base')
    cases t <;> simp only [Term.node, reduceCtorEq, Node.input.injEq] at hplain
    subst hplain
    cases t' <;> cases halike
    change typeOf nodes env _ = typeOf nodes env _
    rw [typeOf_node ho hnode, typeOf_node ho hnode']
    exact congrArg orDefect (hinputs i _ _ ht ht')

end Alike

end Sketch

end Synapse
