import Mathlib.Tactic
import Synapse.Proofs.Histories
import Synapse.Proofs.Interning

namespace Synapse

namespace Dag

variable {seen l l' : List Nat} {x : Nat}

/-- The numbers in `seen` and, behind them, the others of a list, each where it occurs first. -/
def collect (seen l : List Nat) : List Nat := seen ++ (l.removeAll seen).eraseDups

theorem mem_collect : x ∈ collect seen l ↔ x ∈ seen ∨ x ∈ l := by
  simp only [collect, List.removeAll, List.mem_append, List.mem_eraseDups, List.mem_filter]
  by_cases hx : x ∈ seen <;> simp [hx]

theorem collect_nil_left (l : List Nat) : collect [] l = l.eraseDups := by
  simp [collect]

theorem collect_append (seen l l' : List Nat) :
    collect seen (l ++ l') = collect (collect seen l) l' := by
  have hnew : (l'.removeAll seen).removeAll (l.removeAll seen) = l'.removeAll (collect seen l) := by
    simp only [List.removeAll, List.filter_filter]
    refine List.filter_congr fun x _ => ?_
    have hmem : x ∈ collect seen l ↔ x ∈ seen ∨ x ∈ l := mem_collect
    by_cases hseen : x ∈ seen <;> simp [hseen, hmem]
  have hsplit : (l ++ l').removeAll seen = l.removeAll seen ++ l'.removeAll seen :=
    List.filter_append ..
  rw [collect, hsplit, List.eraseDups_append, hnew, ← List.append_assoc]
  rfl

theorem collect_of_subset (h : ∀ x ∈ l, x ∈ seen) : collect seen l = seen := by
  have hnone : l.removeAll seen = [] := by simpa [List.removeAll] using h
  rw [collect, hnone, List.eraseDups_nil, List.append_nil]

theorem collect_singleton (h : x ∉ seen) : collect seen [x] = seen ++ [x] := by
  simp [collect, List.removeAll, h, List.eraseDups_cons]

/-- A visit adds what is below a node, and then the node itself. -/
theorem visit_eq_collect {g : Dag} {i : Nat} {below : List Nat} (hs : g.OperandsFirst seen)
    (hbelow : ∀ x, x ∈ below ↔ ∃ y ∈ g.operands i, g.Reaches y x)
    (hvisit : (g.operands i).foldl (fun s y => g.visit y s) seen = collect seen below) :
    g.visit i seen = collect seen (below ++ [i]) := by
  by_cases hi : i ∈ seen
  · rw [visit_of_mem hi]
    refine (collect_of_subset fun x hx => hs.mem_of_reaches hi ?_).symm
    rw [reaches_iff, ← hbelow x]
    simpa [or_comm] using hx
  · have hnew : i ∉ collect seen below := by
      rw [mem_collect, hbelow]
      rintro (h | ⟨y, hy, h⟩)
      · exact hi h
      · exact absurd h.le (g.descending i y hy).not_ge
    rw [visit_of_notMem hi, hvisit, collect_append, collect_singleton hnew]

end Dag

/-- A node is what a term says, with the nodes `f` gives in the place of the lines that it names. -/
inductive Term.Copies (f : Nat → NodeId) : Term → Node → Prop
  | literal (c : Literal) : Copies f (.literal c) (.literal c)
  | unary (op : Unary) (x : Nat) : Copies f (.unary op x) (.unary op (f x))
  | add (l r : Nat) : Copies f (.binary .add l r) (.binary .add (f l) (f r))
  | sub (l r : Nat) : Copies f (.binary .sub l r) (.binary .sub (f l) (f r))
  | mul (l r : Nat) : Copies f (.binary .mul l r) (.binary .mul (f l) (f r))
  | div (l r : Nat) : Copies f (.binary .div l r) (.binary .div (f l) (f r))
  | input (n : NeuronId) : Copies f (.input n) (.input n)
  | reduce (kind : Reduction) (x : Nat) : Copies f (.reduce kind x) (.reduce kind (f x))
  | activate (name : String) (x : Nat) : Copies f (.activate name x) (.activate name (f x))

theorem Term.copies_node (f : Nat → NodeId) (t : Term) : t.Copies f (t.node f) := by
  cases t with
  | binary op l r => cases op <;> constructor
  | _ => constructor

namespace Sketch

variable {s : Sketch}

/-- The lines met if a line is read as a tree: those of its operands, left before right, and then
the line itself. A line is met as often as it is named. -/
inductive Unfolds (s : Sketch) : Nat → List Nat → Prop
  | literal {i : Nat} {c : Literal} (hi : s.lines[i]? = some (.literal c)) : Unfolds s i [i]
  | input {i : Nat} {n : NeuronId} (hi : s.lines[i]? = some (.input n)) : Unfolds s i [i]
  | unary {i x : Nat} {op : Unary} {xs : List Nat} (hi : s.lines[i]? = some (.unary op x))
    (hx : Unfolds s x xs) : Unfolds s i (xs ++ [i])
  | binary {i l r : Nat} {op : Arith} {ls rs : List Nat}
    (hi : s.lines[i]? = some (.binary op l r)) (hl : Unfolds s l ls) (hr : Unfolds s r rs) :
    Unfolds s i (ls ++ rs ++ [i])
  | reduce {i x : Nat} {kind : Reduction} {xs : List Nat}
    (hi : s.lines[i]? = some (.reduce kind x)) (hx : Unfolds s x xs) : Unfolds s i (xs ++ [i])
  | activate {i x : Nat} {name : String} {xs : List Nat}
    (hi : s.lines[i]? = some (.activate name x)) (hx : Unfolds s x xs) : Unfolds s i (xs ++ [i])

theorem exists_unfolds {i : Nat} (hi : i < s.lines.length) : ∃ met, s.Unfolds i met := by
  induction i using Nat.strong_induction_on with
  | _ i ih =>
    have hline := List.getElem?_eq_getElem hi
    generalize s.lines[i] = t at hline
    have hbelow : ∀ x ∈ t.operands, ∃ met, s.Unfolds x met := by
      intro x hx
      have hlt : x < i := s.dag.descending i x (operands_dag hline ▸ hx)
      exact ih x hlt (hlt.trans hi)
    cases t with
    | literal c => exact ⟨_, .literal hline⟩
    | input n => exact ⟨_, .input hline⟩
    | unary op x =>
      obtain ⟨xs, hxs⟩ := hbelow x List.mem_cons_self
      exact ⟨_, .unary hline hxs⟩
    | binary op l r =>
      obtain ⟨ls, hls⟩ := hbelow l List.mem_cons_self
      obtain ⟨rs, hrs⟩ := hbelow r (List.mem_cons_of_mem _ List.mem_cons_self)
      exact ⟨_, .binary hline hls hrs⟩
    | reduce kind x =>
      obtain ⟨xs, hxs⟩ := hbelow x List.mem_cons_self
      exact ⟨_, .reduce hline hxs⟩
    | activate name x =>
      obtain ⟨xs, hxs⟩ := hbelow x List.mem_cons_self
      exact ⟨_, .activate hline hxs⟩

/-- What a line read as a tree does to the lines that were met before. -/
structure Met (s : Sketch) (i : Nat) (met : List Nat) : Prop where
  mem : ∀ x, x ∈ met ↔ s.dag.Reaches i x
  visit : ∀ seen, s.dag.OperandsFirst seen → s.dag.visit i seen = Dag.collect seen met

namespace Met

variable {i x l r : Nat} {t : Term} {xs ls rs : List Nat}

theorem leaf (hi : s.lines[i]? = some t) (ht : t.operands = []) : s.Met i [i] := by
  have hnone : s.dag.operands i = [] := (operands_dag hi).trans ht
  refine ⟨fun y => ?_, fun seen hs => ?_⟩
  · simp [Dag.reaches_iff (i := i), hnone]
  · change _ = Dag.collect seen ([] ++ [i])
    refine Dag.visit_eq_collect hs ?_ ?_
    · simp [hnone]
    · simp [hnone, Dag.collect]

theorem one (hi : s.lines[i]? = some t) (ht : t.operands = [x]) (hx : s.Met x xs) :
    s.Met i (xs ++ [i]) := by
  have hone : s.dag.operands i = [x] := (operands_dag hi).trans ht
  refine ⟨fun y => ?_, fun seen hs => Dag.visit_eq_collect hs ?_ ?_⟩
  · simp [Dag.reaches_iff (i := i), hone, hx.mem, or_comm]
  · simp [hone, hx.mem]
  · simpa [hone] using hx.visit seen hs

theorem two (hi : s.lines[i]? = some t) (ht : t.operands = [l, r]) (hl : s.Met l ls)
    (hr : s.Met r rs) : s.Met i (ls ++ rs ++ [i]) := by
  have htwo : s.dag.operands i = [l, r] := (operands_dag hi).trans ht
  refine ⟨fun y => ?_, fun seen hs => Dag.visit_eq_collect hs ?_ ?_⟩
  · rw [Dag.reaches_iff, htwo]
    simp [hl.mem, hr.mem, or_comm, or_left_comm]
  · simp [htwo, hl.mem, hr.mem]
  · -- the right operand is visited with what the left one has left behind
    have hafter := (s.dag.visited_visit l seen hs).operandsFirst
    have hright := hr.visit _ hafter
    rw [hl.visit seen hs, ← Dag.collect_append] at hright
    simpa [htwo, hl.visit seen hs] using hright

end Met

theorem Unfolds.met {i : Nat} {met : List Nat} (h : s.Unfolds i met) : s.Met i met := by
  induction h with
  | literal hi => exact .leaf hi rfl
  | input hi => exact .leaf hi rfl
  | unary hi _ ih => exact .one hi rfl ih
  | binary hi _ _ ihl ihr => exact .two hi rfl ihl ihr
  | reduce hi _ ih => exact .one hi rfl ih
  | activate hi _ ih => exact .one hi rfl ih

/-- The lines that a sketch needs come in the order in which they are met first. -/
theorem Unfolds.order_eq {met : List Nat} (h : s.Unfolds s.above.length met) :
    s.order = met.eraseDups := by
  rw [order, Dag.postorder, h.met.visit [] (Dag.operandsFirst_nil _), Dag.collect_nil_left]

/-- The arena `b` is `a` with a copy of the sketch behind it, if the lines of the sketch are met as
in `met` and a line gets the number that `f` gives. -/
structure CopiedTo (s : Sketch) (a b : Arena) (met : List Nat) (f : Nat → NodeId) : Prop where
  kept : ∀ id < a.nodes.size, b.nodes[id]? = a.nodes[id]?
  types : b.types = a.types
  needed : ∀ i, i ∈ met ↔ s.dag.Reaches s.above.length i
  size : b.nodes.size = a.nodes.size + met.eraseDups.length
  numbered : met.eraseDups.map f = List.range' a.nodes.size met.eraseDups.length
  injective : ∀ i ∈ met, ∀ j ∈ met, f i = f j → i = j
  node : ∀ i ∈ met, ∃ t n, s.lines[i]? = some t ∧ b.nodes[f i]? = some n ∧ t.Copies f n
  descending : ∀ i ∈ met, ∀ n, b.nodes[f i]? = some n →
    ∀ x ∈ n.operands, a.nodes.size ≤ x ∧ x < f i

theorem map_place_order (s : Sketch) (base : NodeId) :
    s.order.map (s.place base) = List.range' base s.order.length := by
  refine List.ext_getElem (by simp) fun j hj _ => ?_
  have hlt : j < s.order.length := by simpa using hj
  simp [place, s.idxOf_getElem_order hlt]

theorem copiedTo_intern (a : Arena) {met : List Nat} (h : s.Unfolds s.above.length met) :
    s.CopiedTo a (a.intern s).1 met (s.place a.nodes.size) := by
  have hmem : ∀ i, i ∈ met ↔ i ∈ s.order := by
    intro i
    rw [h.order_eq, List.mem_eraseDups]
  refine ⟨fun id hid => ?_, rfl, h.met.mem, ?_, ?_, fun i hi j hj he => ?_, fun i hi => ?_, ?_⟩
  · exact Array.getElem?_append_left hid
  · rw [Arena.size_intern, h.order_eq]
  · rw [← h.order_eq, map_place_order]
  · exact (List.idxOf_inj ((hmem i).1 hi)).1 (Nat.add_left_cancel he)
  · obtain ⟨t, ht⟩ := s.line_of_mem_order ((hmem i).1 hi)
    exact ⟨t, _, ht, (stands_intern a s).node ((hmem i).1 hi) ht, t.copies_node _⟩
  · intro i hi n hn x hx
    obtain ⟨t, ht⟩ := s.line_of_mem_order ((hmem i).1 hi)
    rw [(stands_intern a s).node ((hmem i).1 hi) ht, Option.some.injEq] at hn
    rw [← hn, Term.operands_node] at hx
    obtain ⟨y, hy, rfl⟩ := List.mem_map.1 hx
    have hlt := s.idxOf_operand_lt ((hmem i).1 hi) ht hy
    exact ⟨Nat.le_add_right _ _, Nat.add_lt_add_left hlt _⟩

/-- The last line is met last, so its node is the last one. -/
theorem root_intern (a : Arena) (s : Sketch) :
    (a.intern s).2 + 1 = (a.intern s).1.nodes.size := by
  obtain ⟨below, hbelow⟩ := s.dag.postorder_eq_concat s.above.length
  have hnew : s.above.length ∉ below := by
    have hnodup := s.dag.nodup_postorder s.above.length
    rw [hbelow] at hnodup
    exact (List.nodup_cons.1 (List.nodup_append_comm.1 hnodup)).1
  have hidx : s.order.idxOf s.above.length = below.length := by
    rw [order, hbelow, List.idxOf_append_of_notMem hnew, List.idxOf_cons_self, Nat.add_zero]
  have hlength : s.order.length = below.length + 1 := by
    rw [order, hbelow, List.length_append, List.length_singleton]
  have hroot : (a.intern s).2 = a.nodes.size + s.order.idxOf s.above.length := rfl
  rw [Arena.size_intern, hroot, hidx, hlength, Nat.add_assoc]

end Sketch

/-- Interning copies a sketch into any arena: what stands there stays, each line that the last one
needs gets one new node, numbered as the lines are met first, and the root is the newest node. -/
theorem intern_copies_shared_lines_once (a : Arena) (s : Sketch) :
    ∃ met f, s.Unfolds s.above.length met ∧ s.CopiedTo a (a.intern s).1 met f ∧
      (a.intern s).2 = f s.above.length ∧ (a.intern s).2 + 1 = (a.intern s).1.nodes.size := by
  obtain ⟨met, hmet⟩ := s.exists_unfolds (i := s.above.length) (by simp [Sketch.lines])
  exact ⟨met, s.place a.nodes.size, hmet, Sketch.copiedTo_intern a hmet, rfl,
    Sketch.root_intern a s⟩

-- the two literals stay apart, the difference is shared, and the input is not needed
example : (Arena.intern {}
      { above := [.literal (.int 7), .literal (.int 7), .binary .sub 1 0, .input 0]
        last := .binary .mul 2 2 }).1.nodes =
    #[.literal (.int 7), .literal (.int 7), .binary .sub 0 1, .binary .mul 2 2] := by
  decide +kernel

end Synapse
