import Mathlib.Tactic
import Synapse.Proofs.Comparison
import Synapse.Proofs.Layers
import Synapse.Proofs.Merging

namespace Synapse

namespace Network

/-- The place of a neuron that has no expression. -/
def gap? (net : Network) (n : NeuronId) : Option (LayerId × Nat) :=
  net.neurons[n]?.bind fun x => if x.forward = none then some (x.layer, x.position) else none

/-- The check of one neuron, which stands at the given place. -/
def checkingNeuron (net : Network) (l : LayerId) (position : Nat) (n : NeuronId) :
    Except Failure Unit :=
  match net.forward? n with
  | none => .ok ()
  | some root =>
    if (Arena.inputNeurons net.arena.nodes root).any (· != n) then
      .error (.error (.type (.foreignInput l position)))
    else do
      let t ← typeOf net.arena.nodes net.env root
      if t.isVector then .error (.error (.type (.outputNotScalar l position t))) else .ok ()

/-- The check of all neurons, layer by layer. -/
def checking (net : Network) : Except Failure Unit :=
  net.layers.toList.zipIdx.forM fun q =>
    q.1.neurons.zipIdx.forM fun r => net.checkingNeuron q.2 r.2 r.1

/-- The line for a node of an expression. -/
def line? (net : Network) (root id : NodeId) : Option Line := do
  let n ← net.arena.nodes[id]?
  let step ← n.step? (net.order root).idxOf ((literalIds net.arena.nodes root).idxOf id)
  let extent ← (typeOf net.arena.nodes net.env id).toOption.bind Ty.extent?
  return { step, extent }

/-- The recipe of a neuron. -/
def recipe (net : Network) (n : NeuronId) : Recipe :=
  match net.forward? n with
  | some root => (net.order root).filterMap (net.line? root)
  | none => []

/-- The tables for the literals of an ensemble: one for each literal of the representative, with the
literals of that rank of all members. -/
def literalTables (net : Network) (e : Ensemble) : List Table :=
  (net.literalsOf e.representative).zipIdx.map fun q =>
    { elem := q.1.ty, first := e.start,
      entries := e.neurons.filterMap fun n => (net.literalsOf n)[q.2]? }

/-- The stride that leads from each member's first source to the next, if there is one. -/
def stride? (net : Network) (e : Ensemble) : Option Int :=
  Wiring.stride? (e.neurons.map fun n => (net.sourcesOf n).head?.map Int.ofNat)

def wiring (net : Network) (e : Ensemble) (next : TableId) : Wiring :=
  if (net.recipe e.representative).readsVector then
    match net.stride? e with
    | some stride => .affine stride
    | none => .table next
  else .affine 0

/-- The table for the first sources of an ensemble, if it needs one. -/
def baseTables (net : Network) (e : Ensemble) : List Table :=
  if (net.recipe e.representative).readsVector ∧ net.stride? e = none then [net.baseTable e] else []

def loweringEnsemble (net : Network) (e : Ensemble) (input output : VarId) (b : Build) :
    Except Failure (Build × Stmt) :=
  match net.gap? e.representative with
  | some p => .error (.error (.graph (.missingForward p.1 p.2)))
  | none =>
    let tables := net.literalTables e
    let site (index : VarId) : Site :=
      { input, index, start := e.start, firstTable := b.tables.size,
        sources := net.sourcesOf e.representative,
        wiring := net.wiring e (b.tables.size + tables.length) }
    let q := Emit.ensemble e site (net.recipe e.representative) output
      { b with tables := b.tables ++ (tables ++ net.baseTables e).toArray }
    .ok (q.2, q.1)

def loweringEnsembles (net : Network) (input output : VarId) :
    List Ensemble → Build → Except Failure (Build × List Stmt)
  | [], b => .ok (b, [])
  | e :: rest, b => do
    let here ← net.loweringEnsemble e input output b
    let below ← net.loweringEnsembles input output rest here.1
    .ok (below.1, here.2 :: below.2)

def loweringLayers (net : Network) (last : LayerId) (input : VarId) :
    List (Layer × LayerId) → Build → Except Failure (Build × List Stmt)
  | [], b => .ok (b, [])
  | q :: rest, b => do
    let start := if q.2 = last then (Kernel.outputVar, b)
      else Emit.declare s!"layer{q.2}" q.1.vectorTy b
    let es ← net.grouping q.2 q.1.neurons
    let here ← net.loweringEnsembles input start.1 es start.2
    let below ← net.loweringLayers last start.1 rest here.1
    let head := if q.2 = last then here.2 else .define start.1 :: here.2
    .ok (below.1, head ++ below.2)

/-- The ensembles of some layers. -/
def groupings (net : Network) : List (Layer × LayerId) → Except Failure (List Ensemble)
  | [] => .ok []
  | q :: rest => do
    let here ← net.grouping q.2 q.1.neurons
    let below ← net.groupings rest
    .ok (here ++ below)

/-- The tables of some ensembles, in the order of their numbers. -/
def tables (net : Network) (es : List Ensemble) : List Table :=
  es.flatMap fun e => net.literalTables e ++ net.baseTables e

/-- The kernel of a network, or what lowering stops at. -/
def lowering (net : Network) : Except Failure Kernel := do
  net.checking
  let width (l : Option Layer) : Ty := (l.getD {}).vectorTy
  let start := Kernel.new (width net.layers[0]?) (width net.layers.back?)
  let q ← net.loweringLayers (net.layers.size - 1) Kernel.inputVar net.loweredLayers
    { vars := start.vars }
  .ok { vars := q.1.vars, arena := { nodes := q.1.nodes }, tables := q.1.tables, body := q.2 }

theorem gap?_eq_none {net : Network} {n : NeuronId} {root : NodeId}
    (h : net.forward? n = some root) : net.gap? n = none := by
  obtain ⟨x, hx, hroot⟩ := Option.bind_eq_some_iff.1 h
  simp [gap?, hx, hroot]

end Network

section

variable {nodes : Array Node} {env : Env}

theorem Node.typeBy_operand {of : NodeId → Except Failure Ty} {n : Node} {t : Ty}
    (h : n.typeBy env of = .ok t) {x : NodeId} (hx : x ∈ n.operands) : ∃ u, of x = .ok u := by
  cases n with
  | literal c => cases hx
  | unary op y =>
    obtain rfl := List.mem_singleton.1 hx
    exact ⟨t, h⟩
  | binary op l r =>
    obtain ⟨u, hu, h⟩ := bind_eq_ok.1 h
    obtain ⟨w, hw, _⟩ := bind_eq_ok.1 h
    rcases List.mem_pair.1 hx with rfl | rfl
    · exact ⟨u, hu⟩
    · exact ⟨w, hw⟩
  | input n => cases hx
  | reduce kind y =>
    obtain rfl := List.mem_singleton.1 hx
    obtain ⟨u, hu, _⟩ := bind_eq_ok.1 h
    exact ⟨u, hu⟩
  | activate name y =>
    obtain rfl := List.mem_singleton.1 hx
    obtain ⟨u, hu, _⟩ := bind_eq_ok.1 h
    exact ⟨u, hu⟩
  | var v => cases hx
  | element v y =>
    obtain rfl := List.mem_singleton.1 hx
    obtain ⟨_, _, h⟩ := bind_eq_ok.1 h
    obtain ⟨_, _, h⟩ := bind_eq_ok.1 h
    obtain ⟨u, hu, _⟩ := bind_eq_ok.1 h
    exact ⟨u, hu⟩
  | entry s y =>
    obtain rfl := List.mem_singleton.1 hx
    obtain ⟨u, hu, _⟩ := bind_eq_ok.1 h
    exact ⟨u, hu⟩

theorem node_of_typeOf {id : NodeId} {t : Ty} (h : typeOf nodes env id = .ok t) :
    ∃ n, nodes[id]? = some n := by
  cases hn : nodes[id]? with
  | some n => exact ⟨n, rfl⟩
  | none =>
    rw [typeOf, typeFrom_unknown (by simp)] at h
    simp [Arena.find?, hn] at h

/-- An expression has a type only if all that it reaches has one. -/
theorem typeOf_of_reaches (ho : Arena.Ordered nodes) {root x : NodeId}
    (hx : (Arena.dag nodes).Reaches root x) {t : Ty} (ht : typeOf nodes env root = .ok t) :
    ∃ u, typeOf nodes env x = .ok u := by
  induction hx with
  | refl => exact ⟨t, ht⟩
  | @tail y z _ hz ih =>
    obtain ⟨u, hu⟩ := ih
    obtain ⟨n, hn⟩ := node_of_typeOf hu
    change z ∈ Arena.operandsOf nodes y at hz
    rw [Arena.operandsOf_eq ho hn] at hz
    rw [typeOf_node ho hn] at hu
    exact Node.typeBy_operand hu hz

end

theorem Extent.join {x y : Extent} {t : Ty} (h : x.ty.join y.ty = some t) :
    ∃ z : Extent, t = z.ty := by
  obtain ⟨s, _, h⟩ := Option.bind_eq_some_iff.1 h
  cases x with
  | scalar a =>
    cases y with
    | scalar b => exact ⟨.scalar s, (Option.some.inj h).symm⟩
    | vector b n => exact ⟨.vector s n, (Option.some.inj h).symm⟩
  | vector a m =>
    cases y with
    | scalar b => exact ⟨.vector s m, (Option.some.inj h).symm⟩
    | vector b n => exact ⟨.vector s (min m n), (Option.some.inj h).symm⟩

theorem Extent.reduce {x : Extent} {t : Ty} (h : Rule.reduce x.ty = .ok t) :
    ∃ z : Extent, t = z.ty := by
  cases x with
  | scalar s => cases h
  | vector s k =>
    cases k with
    | zero => cases h
    | succ k => exact ⟨.scalar s, (Except.ok.inj h).symm⟩

theorem Extent.activate {name : String} {u t : Ty} (h : Rule.activate name u = .ok t) :
    ∃ z : Extent, t = z.ty := by
  cases u with
  | scalar s => exact ⟨.scalar s, (Except.ok.inj h).symm⟩
  | vector s k => cases h

theorem Literal.extent (c : Literal) : ∃ x : Extent, c.ty = x.ty := by
  cases c with
  | int n => exact ⟨.scalar .int, rfl⟩
  | bool b => exact ⟨.scalar .bool, rfl⟩
  | real x => exact ⟨.scalar .real, rfl⟩
  | vec xs => exact ⟨.vector .real _, rfl⟩

theorem Neuron.extent (n : Neuron) : ∃ x : Extent, n.inputTy = x.ty := by
  unfold Neuron.inputTy
  split
  · exact ⟨.scalar .real, rfl⟩
  · exact ⟨.vector .real _, rfl⟩

/-- The vectors in a network have known lengths. -/
theorem extent_of_typeOf {net : Network} (ho : Arena.Ordered net.arena.nodes) {id : NodeId} {t : Ty}
    (ht : typeOf net.arena.nodes net.env id = .ok t) : ∃ x : Extent, t = x.ty := by
  induction id using Nat.strong_induction_on generalizing t with
  | _ id ih =>
    obtain ⟨n, hn⟩ := node_of_typeOf ht
    have hlt : ∀ y ∈ n.operands, y < id := ho id n hn
    rw [typeOf_node ho hn] at ht
    cases n with
    | literal c =>
      obtain rfl := Except.ok.inj ht
      exact c.extent
    | unary op y => exact ih y (hlt y List.mem_cons_self) ht
    | binary op l r =>
      obtain ⟨u, hu, ht⟩ := bind_eq_ok.1 ht
      obtain ⟨w, hw, ht⟩ := bind_eq_ok.1 ht
      obtain ⟨x, rfl⟩ := ih l (hlt l List.mem_cons_self) hu
      obtain ⟨y, rfl⟩ := ih r (hlt r (List.mem_cons_of_mem _ List.mem_cons_self)) hw
      exact Extent.join (Rule.join_eq_ok.1 (orTypeError_eq_ok.1 ht))
    | input m =>
      have hinput := orDefect_eq_ok.1 ht
      cases hm : net.neurons[m]? with
      | none => simp [Network.env, Network.neuron, hm, Except.map] at hinput
      | some x =>
        rw [Network.env_input hm] at hinput
        obtain rfl := Except.ok.inj hinput
        exact x.extent
    | reduce kind y =>
      obtain ⟨u, hu, ht⟩ := bind_eq_ok.1 ht
      obtain ⟨x, rfl⟩ := ih y (hlt y List.mem_cons_self) hu
      exact Extent.reduce (orTypeError_eq_ok.1 ht)
    | activate name y =>
      obtain ⟨u, _, ht⟩ := bind_eq_ok.1 ht
      exact Extent.activate (orTypeError_eq_ok.1 ht)
    | var v => cases ht
    | element v y => cases ht
    | entry s y =>
      obtain ⟨u, _, ht⟩ := bind_eq_ok.1 ht
      obtain ⟨_, _, ht⟩ := bind_eq_ok.1 ht
      cases ht

theorem Node.Plain.step? {n : Node} (h : n.Plain) (place : NodeId → Nat) (rank : Nat) :
    ∃ s, n.step? place rank = some s := by
  obtain ⟨t, at', rfl⟩ := h
  cases t with
  | binary op l r => cases op <;> exact ⟨_, rfl⟩
  | _ => exact ⟨_, rfl⟩

theorem Node.Plain.readsKernel {n : Node} (h : n.Plain) : n.readsKernel = false := by
  obtain ⟨t, place, rfl⟩ := h
  cases t <;> rfl

/-- Where all inputs are there, the type of an expression may be wrong but not missing. -/
theorem typeOf_ne_defect {net : Network} (ho : Arena.Ordered net.arena.nodes) (hb : net.Built)
    {root : NodeId} (h : Resolved ∅ net.arena.nodes net.env root) (d : Defect) :
    typeOf net.arena.nodes net.env root ≠ .error (.defect d) := by
  obtain ⟨r, hr⟩ := typeOf_resolved ho h fun x n _ hn => (hb.plain x n hn).readsKernel
  rw [hr]
  exact orTypeError_ne_defect r d

theorem forM_ne_defect {α : Type} {f : α → Except Failure Unit} {xs : List α} {d : Defect}
    (h : ∀ x ∈ xs, f x ≠ .error (.defect d)) : xs.forM f ≠ .error (.defect d) := by
  intro hfail
  obtain ⟨before, x, after, rfl, _, hx⟩ := forM_eq_error.1 hfail
  exact h x (by simp) hx

/-- The type check finds errors but no defects. -/
theorem Network.checking_ne_defect {net : Network} (hw : net.WellFormed) (hb : net.Built)
    (d : Defect) : net.checking ≠ .error (.defect d) := by
  apply forM_ne_defect
  rintro ⟨layer, l⟩ hq
  have hl : net.layers[l]? = some layer := by simpa [List.mk_mem_zipIdx_iff_getElem?] using hq
  apply forM_ne_defect
  intro r hr
  obtain ⟨x, hx, _⟩ := hw.neuron_of_mem hl (List.fst_mem_of_mem_zipIdx hr)
  unfold checkingNeuron
  split
  · exact fun h => by cases h
  · rename_i root hroot
    split
    · exact fun h => by cases h
    · rename_i hown
      have howned : net.Owned r.1 := by
        refine ⟨x, hx, fun root' hroot' => ?_⟩
        obtain rfl : root' = root := by simpa [forward?, hx, hroot'] using hroot
        exact ⟨hb.rooted r.1 x hx root' hroot', readsOwn_of_any hown⟩
      apply bind_ne_defect (typeOf_ne_defect hw.ordered hb (howned.resolved hw.ordered hroot) d)
      intro t
      split <;> exact fun h => by cases h

/-- Every expression that has a type has a recipe. -/
theorem exists_recipe {net : Network} (hw : net.WellFormed) (hb : net.Built) {root : NodeId}
    {t : Ty} (ht : typeOf net.arena.nodes net.env root = .ok t) : ∃ r, RecipeOf net root r := by
  have hline : ∀ id ∈ net.order root, ∃ l, LineOf net root id l := by
    intro id hid
    have hreach := Dag.mem_postorder.1 hid
    obtain ⟨u, hu⟩ := typeOf_of_reaches hw.ordered hreach ht
    obtain ⟨x, rfl⟩ := extent_of_typeOf hw.ordered hu
    obtain ⟨n, hn⟩ := node_of_typeOf hu
    obtain ⟨s, hs⟩ := (hb.plain id n hn).step? (net.order root).idxOf
      ((literalIds net.arena.nodes root).idxOf id)
    exact ⟨⟨s, x⟩, ⟨n, hn, hs⟩, hu⟩
  have : Nonempty Line := ⟨⟨.input, default⟩⟩
  choose! f hf using hline
  exact ⟨(net.order root).map f, List.forall₂_map_right_iff.2 (List.forall₂_same.2 hf)⟩

namespace Pass.Answers

variable {net : Network} {α β : Type}

theorem bind_error {x : Pass α} {f : α → Pass β} {e : Failure}
    (hx : Answers net x (· = .error e)) : Answers net (x >>= f) (· = .error e) := by
  apply hx.bind
  · rintro a ⟨⟩
  · intro e' he
    rw [Except.error.inj he]

/-- A sequence comes to what its parts come to. -/
theorem bindExact {x : Pass α} {f : α → Pass β} {r : Except Failure α} {g : α → Except Failure β}
    (hx : Answers net x (· = r)) (hf : ∀ a, r = .ok a → Answers net (f a) (· = g a)) :
    Answers net (x >>= f) (· = r >>= g) := by
  cases r with
  | error e => exact bind_error hx
  | ok a => exact Returns.bind hx (hf a rfl)

theorem forMExact {f : α → Pass PUnit} {g : α → Except Failure PUnit} {xs : List α}
    (h : ∀ x ∈ xs, Answers net (f x) (· = g x)) : Answers net (xs.forM f) (· = xs.forM g) := by
  induction xs with
  | nil => exact pure rfl
  | cons x xs ih =>
    apply bindExact (h x List.mem_cons_self)
    intro _ _
    exact ih fun y hy => h y (List.mem_cons_of_mem _ hy)

theorem checkingNeuron {n : NeuronId} {x : Neuron} (hx : net.neurons[n]? = some x) (l : LayerId)
    (position : Nat) : Answers net (Pass.checkNeuron l position n)
      (· = net.checkingNeuron l position n) := by
  have hforward : net.forward? n = x.forward := by simp [Network.forward?, hx]
  unfold Network.checkingNeuron
  apply (Returns.neuron hx).bind
  rw [hforward]
  cases x.forward with
  | none => exact pure rfl
  | some root =>
    refine network (fun _ => rfl) ?_
    simp only
    split
    · exact throw rfl
    · apply bindExact (infer root)
      intro t _
      apply (Returns.report _).bind
      split
      · exact throw rfl
      · exact pure rfl

theorem checking (hw : net.WellFormed) : Answers net Pass.check (· = net.checking) := by
  refine network (fun _ => rfl) ?_
  apply forMExact
  intro q hq
  apply forMExact
  intro r hr
  obtain ⟨layer, l⟩ := q
  obtain ⟨n, p⟩ := r
  have hl : net.layers[l]? = some layer := by simpa [List.mk_mem_zipIdx_iff_getElem?] using hq
  obtain ⟨x, hx, _⟩ := hw.placed l layer p n hl (List.mk_mem_zipIdx_iff_getElem?.1 hr)
  exact checkingNeuron hx l p

end Pass.Answers

namespace Pass.Returns

variable {net : Network}

theorem typeOf {id : NodeId} {t : Ty}
    (h : Synapse.typeOf net.arena.nodes net.env id = .ok t) : Returns net (Pass.typeOf id) t := by
  have hattempt : Returns net (attempt (Pass.infer id)) (.ok t) := by
    apply (infer h).attempt
    · rintro u ⟨⟩
      rfl
    · rintro e ⟨⟩
    · rintro d ⟨⟩
  exact hattempt.bind (pure t)

theorem recipeOf {root : NodeId} {r : Recipe} (h : RecipeOf net root r) :
    Returns net (Pass.recipeOf root) r := by
  refine Answers.network (fun _ => rfl) (mapM (h.imp fun id l hl => ?_))
  obtain ⟨⟨n, hn, hstep⟩, htype⟩ := hl
  apply (typeOf htype).bind
  refine Answers.network (fun _ => rfl) ?_
  have hsome : net.arena.nodes[id]?.bind (Node.step? (net.order root).idxOf
      ((literalIds net.arena.nodes root).idxOf id)) = some l.step := by
    rw [hn, Option.bind_some, hstep]
  have hextent : l.extent.ty.extent? = some l.extent := Ty.extent?_eq_some.2 rfl
  rw [← literalIds]
  simp only [hsome, hextent]
  exact pure l

theorem forwardOf {n : NeuronId} {root : NodeId} (h : net.forward? n = some root) :
    Returns net (Pass.forwardOf n) root := by
  obtain ⟨x, hx, hroot⟩ := Option.bind_eq_some_iff.1 h
  apply (neuron hx).bind
  rw [hroot]
  exact pure root

theorem literalsOf {n : NeuronId} {root : NodeId} (h : net.forward? n = some root) {tables : Nat}
    (hlen : (net.literalsOf n).length = tables) :
    Returns net (Pass.literalsOf n tables) (net.literalsOf n) := by
  apply (forwardOf h).bind
  refine Answers.network (fun _ => rfl) ?_
  rw [Network.literalsOf_eq h] at hlen ⊢
  simp only [hlen, if_true]
  exact pure _

theorem firstSources (hw : net.WellFormed) {e : Ensemble}
    (he : ∀ n ∈ e.neurons, ∃ x, net.neurons[n]? = some x) :
    Returns net (Pass.firstSources e)
      (e.neurons.map fun n => (net.sourcesOf n).head?.map Int.ofNat) := by
  apply map
  intro n hn
  obtain ⟨x, hx⟩ := he n hn
  apply (neuron hx).bind
  apply (sourcePositions hw hx).bind
  rw [Network.sourcesOf, hx]
  exact pure _

end Pass.Returns

/-- Literals of the right types can be added to tables. -/
theorem addRow_succeeds (first : TableId) {tables : List Table} {row : List Literal}
    (h : tables.map (·.elem) = row.map Literal.ty) :
    ∃ tables', Pass.addRow first tables row = .ok tables' ∧
      tables'.map (·.elem) = tables.map (·.elem) := by
  unfold Pass.addRow
  induction tables generalizing first row with
  | nil => exact ⟨[], rfl, rfl⟩
  | cons t tables ih =>
    cases row with
    | nil => cases h
    | cons c row =>
      obtain ⟨hty, hrest⟩ : t.elem = c.ty ∧ tables.map (·.elem) = row.map Literal.ty :=
        List.cons.inj h
      obtain ⟨below, hbelow, helems⟩ := ih (first + 1) hrest
      have hadd : t.add first c = .ok { t with entries := t.entries ++ [c] } := by
        rw [Table.add, hty, if_pos (Ty.agrees_self _)]
      refine ⟨{ t with entries := t.entries ++ [c] } :: below, ?_, by simp [helems]⟩
      rw [List.zip_cons_cons, List.zipIdx_cons, List.mapM_cons]
      exact bind_eq_ok.2 ⟨_, hadd, bind_eq_ok.2 ⟨below, hbelow, rfl⟩⟩

/-- Expressions that match have literals of the same types. -/
theorem Matches.literal_types {nodes : Array Node} {env : Env} (ho : Arena.Ordered nodes)
    {v : NodeId} {f : NodeId → NodeId}
    (hf : Matches ∅ nodes env ((Arena.dag nodes).Reaches v) f) :
    (Arena.literals nodes (f v)).map (·.2.ty) = (Arena.literals nodes v).map (·.2.ty) := by
  have hl := matches_iff_likens.1 hf
  have htypes : ∀ root, (literalIds nodes root).map (typeOf nodes env) =
      ((Arena.literals nodes root).map (·.2.ty)).map .ok := by
    intro root
    rw [literalIds, List.map_map, List.map_map]
    apply List.map_congr_left
    intro q hq
    exact typeOf_node ho (of_mem_literals hq)
  have hsame : ∀ x ∈ literalIds nodes v, (typeOf nodes env ∘ f) x = typeOf nodes env x :=
    fun x hx => hl.typeOf_eq ho ho (reaches_of_mem_literalIds hx)
  apply List.map_injective_iff.2 (fun _ _ => Except.ok.inj)
  rw [← htypes, ← htypes, hl.literalIds_eq, List.map_map, List.map_congr_left hsame]

/-- The members of an ensemble whose representative has an expression. -/
theorem Network.Congruent.literal_types {net : Network} (hr : net.Ready) {n m : NeuronId}
    (h : net.Congruent n m) : ∃ root, net.forward? n = some root ∧
      (net.literalsOf n).map Literal.ty = (net.literalsOf m).map Literal.ty := by
  obtain ⟨x, y, v, w, hx, hy, hxv, hyw, _, _, hmatch⟩ := h
  have hv : net.forward? n = some v := by simp [Network.forward?, hx, hxv]
  have hw' : net.forward? m = some w := by simp [Network.forward?, hy, hyw]
  obtain ⟨f, rfl, hf⟩ := hmatch (hr.checked n v hv).1 (hr.checked m w hw').1
  have htypes := hf.literal_types hr.wellFormed.ordered
  refine ⟨v, hv, ?_⟩
  rw [Network.literalsOf_eq hv, Network.literalsOf_eq hw', List.map_map, List.map_map]
  exact htypes.symm

namespace Pass.Yields

variable {net : Network} {e : Ensemble} {root : NodeId}

theorem literalTables (hr : net.Ready)
    (hcong : ∀ n ∈ e.others, net.Congruent n e.representative)
    (hroot : net.forward? e.representative = some root) (first : TableId) :
    Yields net (Pass.literalTables e first) fun _ => True := by
  set tys := (net.literalsOf e.representative).map Literal.ty with htys
  have hmember : ∀ n ∈ e.neurons, ∃ r, net.forward? n = some r ∧
      (net.literalsOf n).map Literal.ty = tys := by
    intro n hn
    rcases List.mem_cons.1 hn with rfl | hn
    · exact ⟨root, hroot, rfl⟩
    · exact (hcong n hn).literal_types hr
  have hempty : Returns net ((Arena.literals net.arena.nodes root).mapM fun q => do
      return ({ elem := ← Pass.infer q.1, first := e.start } : Table))
      ((Arena.literals net.arena.nodes root).map fun q => { elem := q.2.ty, first := e.start }) := by
    apply Returns.map
    intro q hq
    have hty := Returns.infer (typeOf_node hr.wellFormed.ordered (of_mem_literals hq))
    exact hty.bind (Returns.pure _)
  apply (Returns.forwardOf hroot).bind
  refine Answers.network (fun _ => rfl) ?_
  apply hempty.bind
  -- what a row needs is that the tables still have the types of the representative's literals
  apply Answers.imp (foldlM (P := fun tables : List Table => tables.map (·.elem) = tys) ?_ ?_)
  · rintro r ⟨tables, rfl, _⟩
    exact ⟨tables, rfl, trivial⟩
  · intro n hn tables htables
    obtain ⟨r, hforward, hlits⟩ := hmember n hn
    have hrow : tables.map (·.elem) = (net.literalsOf n).map Literal.ty := htables.trans hlits.symm
    have hlen : (net.literalsOf n).length = tables.length := by
      simpa using congrArg List.length hrow.symm
    apply (Returns.literalsOf hforward hlen).bind
    obtain ⟨tables', hadd, helems⟩ := addRow_succeeds first hrow
    rw [hadd]
    exact Answers.pure ⟨tables', rfl, helems.trans htables⟩
  · rw [htys, Network.literalsOf_eq hroot, List.map_map, List.map_map]
    rfl

end Pass.Yields

section

variable {net : Network} {e : Ensemble}

theorem LineOf.line?_eq {root id : NodeId} {l : Line} (h : LineOf net root id l) :
    net.line? root id = some l := by
  obtain ⟨⟨n, hn, hstep⟩, htype⟩ := h
  have hextent : l.extent.ty.extent? = some l.extent := Ty.extent?_eq_some.2 rfl
  simp [Network.line?, hn, hstep, htype, Except.toOption, hextent]

theorem RecipeOf.recipe_eq {n : NeuronId} {root : NodeId} {r : Recipe}
    (hroot : net.forward? n = some root) (h : RecipeOf net root r) : net.recipe n = r := by
  have hlines : ∀ ids ls, List.Forall₂ (LineOf net root) ids ls →
      ids.filterMap (net.line? root) = ls := by
    intro ids ls hls
    induction hls with
    | nil => rfl
    | cons hl _ ih => rw [List.filterMap_cons_some hl.line?_eq, ih]
  rw [Network.recipe, hroot]
  exact hlines _ r h

/-- Tables that hold the literals of members are determined by them. -/
theorem Tabulates.eq_literalTables {tables : List Table}
    (h : Tabulates net e.start ((net.literalsOf e.representative).map Literal.ty) e.neurons tables)
    (hcount : ∀ n ∈ e.neurons,
      (net.literalsOf n).length = (net.literalsOf e.representative).length) :
    tables = net.literalTables e := by
  have hlength : tables.length = (net.literalsOf e.representative).length := by
    simpa using congrArg List.length h.types
  have hentries : ∀ (j : Nat) (t : Table), tables[j]? = some t →
      t.entries.map some = e.neurons.map fun n => (net.literalsOf n)[j]? := by
    intro j t ht
    have hj : j < (net.literalsOf e.representative).length := by
      rw [← hlength]
      exact (List.getElem?_eq_some_iff.1 ht).1
    apply List.ext_getElem (by simp [h.length t (List.mem_of_getElem? ht)])
    intro i hi hi'
    rw [List.length_map] at hi'
    have hc : j < (net.literalsOf e.neurons[i]).length := by
      rwa [hcount _ (List.getElem_mem hi')]
    obtain ⟨t', ht', hentry⟩ := h.entries i _ (List.getElem?_eq_getElem hi') j _
      (List.getElem?_eq_getElem hc)
    obtain rfl : t = t' := Option.some.inj (ht.symm.trans ht')
    rw [List.getElem_map, List.getElem_map, List.getElem?_eq_getElem hc]
    exact congrArg some (List.getElem?_eq_some_iff.1 hentry).2
  apply List.ext_getElem (by simp [Network.literalTables, hlength])
  intro j hj hj'
  have hrow := hentries j _ (List.getElem?_eq_getElem hj)
  have hentries : tables[j].entries = e.neurons.filterMap fun n => (net.literalsOf n)[j]? := by
    rw [← Function.id_comp fun n => (net.literalsOf n)[j]?, ← List.filterMap_map, ← hrow,
      List.filterMap_map, Function.id_comp, List.filterMap_some]
  have helem : tables[j].elem = ((net.literalsOf e.representative)[j]).ty := by
    have htypes := List.getElem_of_eq h.types (by simpa using hj)
    simpa using htypes
  have hfirst : tables[j].first = e.start := h.start _ (List.getElem_mem hj)
  simp [Network.literalTables, ← hentries, ← helem, ← hfirst]

end

/-- The ensembles that grouping finds cover the layer. -/
theorem Network.Ready.tiles {net : Network} (hr : net.Ready) {l : LayerId} {layer : Layer}
    (hl : net.layers[l]? = some layer) {es : List Ensemble}
    (h : net.grouping l layer.neurons = .ok es) : net.Tiles l 0 es layer.neurons := by
  obtain ⟨r, ⟨rfl, hgives⟩, _⟩ :=
    (hr.collect hl).and hr.wellFormed (Pass.Answers.collect hr.wellFormed l)
  obtain ⟨layer', hl', htiles⟩ := hgives es h
  obtain rfl : layer = layer' := Option.some.inj (hl.symm.trans hl')
  exact htiles

theorem Network.Tiles.mem {net : Network} {l : LayerId} {start : Nat} {es : List Ensemble}
    {ns : List NeuronId} (h : net.Tiles l start es ns) {e : Ensemble} (he : e ∈ es) {n : NeuronId}
    (hn : n ∈ e.neurons) : n ∈ ns := by
  induction h with
  | nil => cases he
  | cons _ _ _ ih =>
    rcases List.mem_cons.1 he with rfl | he
    · exact List.mem_append_left _ hn
    · exact List.mem_append_right _ (ih he)

theorem Network.Tiles.congruent {net : Network} {l : LayerId} {start : Nat} {es : List Ensemble}
    {ns : List NeuronId} (h : net.Tiles l start es ns) {e : Ensemble} (he : e ∈ es) :
    ∀ n ∈ e.others, net.Congruent n e.representative := by
  induction h with
  | nil => cases he
  | cons _ hcong _ ih =>
    rcases List.mem_cons.1 he with rfl | he
    · exact hcong
    · exact ih he

theorem Network.Ready.of_checking {net : Network} (hw : net.WellFormed) (hb : net.Built)
    (h : net.checking = .ok ()) : net.Ready := by
  obtain ⟨r, ⟨rfl, hgives⟩, _⟩ := (Pass.Answers.checking hw).and hw (Pass.Answers.check hw)
  exact ⟨hw, hb, hgives () h⟩

/-- Networks whose expressions are scalar and read their own inputs only pass the check. -/
theorem Network.Checked.checking {net : Network} (h : net.Checked) : net.checking = .ok () := by
  refine forM_eq_ok.2 fun q _ => forM_eq_ok.2 fun r _ => ?_
  unfold checkingNeuron
  cases hroot : net.forward? r.1 with
  | none => rfl
  | some root =>
    obtain ⟨hown, s, hs⟩ := h r.1 root hroot
    simp only [any_of_readsOwn hown, hs]
    rfl

namespace Pass

variable {net : Network} {e : Ensemble}

theorem Returns.literalTables (hr : net.Ready)
    (hcong : ∀ n ∈ e.others, net.Congruent n e.representative) {root : NodeId}
    (hroot : net.forward? e.representative = some root) (first : TableId) :
    Returns net (Pass.literalTables e first) (net.literalTables e) := by
  have hcount : ∀ n ∈ e.neurons,
      (net.literalsOf n).length = (net.literalsOf e.representative).length := by
    intro n hn
    rcases List.mem_cons.1 hn with rfl | hn
    · rfl
    · obtain ⟨_, _, htypes⟩ := (hcong n hn).literal_types hr
      simpa using congrArg List.length htypes
  apply ((Yields.literalTables hr hcong hroot first).and hr.wellFormed
    (Answers.literalTables hr.wellFormed.ordered e first)).imp
  rintro r ⟨⟨tables, rfl, _⟩, hgives⟩
  have htypes : (Arena.literals net.arena.nodes root).map (·.2.ty) =
      (net.literalsOf e.representative).map Literal.ty := by
    rw [Network.literalsOf_eq hroot, List.map_map]
    rfl
  have htables := hgives tables rfl root hroot
  rw [htypes] at htables
  rw [htables.eq_literalTables hcount]

theorem Returns.wire (hw : net.WellFormed) (he : ∀ n ∈ e.neurons, ∃ x, net.neurons[n]? = some x)
    (next : TableId) : Returns net (Pass.wire e (net.recipe e.representative) next)
      (net.wiring e next, net.baseTables e) := by
  unfold Pass.wire Network.wiring Network.baseTables
  split
  · apply (Returns.firstSources hw he).bind
    apply (Returns.report _).bind
    apply Answers.pure
    rw [← Network.stride?]
    cases net.stride? e with
    | some stride => simp [*]
    | none =>
      have hentries : ∀ n, ((net.sourcesOf n).head?.map Int.ofNat).getD 0 =
          ((net.sourcesOf n).headD 0 : Nat) := by
        intro n
        cases net.sourcesOf n <;> rfl
      simp [*, Network.baseTable]
  · rename_i h
    simp only [h]
    exact Returns.pure _

/-- Lowering an ensemble comes to what the rule says. -/
theorem Answers.loweringEnsemble (hr : net.Ready)
    (hcong : ∀ n ∈ e.others, net.Congruent n e.representative) {x : Neuron}
    (hx : net.neurons[e.representative]? = some x) (input output : VarId) (b : Build) :
    Answers net (Pass.lowerEnsemble e input output b)
      (· = net.loweringEnsemble e input output b) := by
  cases hroot : x.forward with
  | none =>
    have hgap : net.gap? e.representative = some (x.layer, x.position) := by
      simp [Network.gap?, hx, hroot]
    have hstop : Answers net (Pass.forwardOf e.representative)
        (· = .error (.error (.graph (.missingForward x.layer x.position)))) := by
      apply (Returns.neuron hx).bind
      rw [hroot]
      exact throw rfl
    simp only [Network.loweringEnsemble, hgap]
    exact bind_error (bind_error hstop)
  | some root =>
    have hforward : net.forward? e.representative = some root := by
      simp [Network.forward?, hx, hroot]
    have he : ∀ n ∈ e.neurons, ∃ x, net.neurons[n]? = some x := by
      intro n hn
      rcases List.mem_cons.1 hn with rfl | hn
      · exact ⟨x, hx⟩
      · obtain ⟨y, _, _, _, hy, _⟩ := hcong n hn
        exact ⟨y, hy⟩
    obtain ⟨s, hs⟩ := (hr.checked _ _ hforward).2
    obtain ⟨r, hrecipe⟩ := exists_recipe hr.wellFormed hr.built hs
    have hr' : net.recipe e.representative = r := hrecipe.recipe_eq hforward
    simp only [Network.loweringEnsemble, Network.gap?_eq_none hforward]
    apply (Returns.literalTables hr hcong hforward _).bind
    apply (Returns.forwardOf hforward).bind
    apply (Returns.recipeOf hrecipe).bind
    rw [← hr']
    apply (Returns.wire hr.wellFormed he _).bind
    apply (Returns.neuron hx).bind
    apply (Returns.sourcePositions hr.wellFormed hx).bind
    rw [← Network.sourcesOf_eq hx]
    apply (Returns.report _).bind
    exact Returns.pure _

/-- The ensembles of a layer, one after the other. -/
theorem Answers.loweringEnsembles (hr : net.Ready) {l : LayerId} {start : Nat} {es : List Ensemble}
    {ns : List NeuronId} (ht : net.Tiles l start es ns)
    (hns : ∀ n ∈ ns, ∃ x, net.neurons[n]? = some x) (input output : VarId) (b : Build) :
    Answers net (Pass.lowerEnsembles input output es b)
      (· = net.loweringEnsembles input output es b) := by
  induction ht generalizing b with
  | nil => exact pure rfl
  | @cons e es ns _ hcong _ ih =>
    obtain ⟨x, hx⟩ := hns e.representative (by simp [Ensemble.neurons])
    apply bindExact (loweringEnsemble hr hcong hx input output b)
    intro here _
    apply bindExact (ih (fun n hn => hns n (List.mem_append_right _ hn)) here.1)
    intro below _
    exact pure rfl

/-- The layers, one after the other, if each has the ensembles that grouping finds. -/
theorem Answers.loweringLayers (hr : net.Ready) {layers : List (Layer × LayerId)}
    (hlayers : ∀ q ∈ layers, net.layers[q.2]? = some q.1)
    (hes : ∀ q ∈ layers, Answers net (Pass.ensembles q.2) (· = net.grouping q.2 q.1.neurons))
    (last : LayerId) (input : VarId) (b : Build) :
    Answers net (Pass.lowerLayers last input layers b)
      (· = net.loweringLayers last input layers b) := by
  induction layers generalizing input b with
  | nil => exact pure rfl
  | cons q rest ih =>
    obtain ⟨layer, l⟩ := q
    have hl : net.layers[l]? = some layer := hlayers _ List.mem_cons_self
    have hns : ∀ n ∈ layer.neurons, ∃ x, net.neurons[n]? = some x := by
      intro n hn
      obtain ⟨x, hx, _⟩ := hr.wellFormed.neuron_of_mem hl hn
      exact ⟨x, hx⟩
    apply bindExact (hes _ List.mem_cons_self)
    intro es hok
    apply bindExact (loweringEnsembles hr (hr.tiles hl hok) hns input _ _)
    intro here _
    apply bindExact (ih (fun q hq => hlayers q (List.mem_cons_of_mem _ hq))
      (fun q hq => hes q (List.mem_cons_of_mem _ hq)) _ here.1)
    intro below _
    exact pure rfl

/-- Lowering comes to what the rules say, if each layer has the ensembles that grouping finds. -/
theorem Answers.lowering (hw : net.WellFormed) (hb : net.Built)
    (hes : net.Ready → ∀ q ∈ net.loweredLayers,
      Answers net (Pass.ensembles q.2) (· = net.grouping q.2 q.1.neurons)) :
    Answers net Pass.lower (· = net.lowering) := by
  apply bindExact (Answers.checking hw)
  intro _ hok
  have hr : net.Ready := .of_checking hw hb hok
  refine Answers.network (fun _ => rfl) ?_
  apply bindExact (loweringLayers hr (fun q hq => getElem?_of_mem_loweredLayers hq) (hes hr) _ _ _)
  intro q _
  apply (Returns.report _).bind
  exact pure rfl

end Pass

namespace Network

variable {net : Network}

theorem loweringEnsemble_tables {e : Ensemble} {input output : VarId} {b : Build}
    {q : Build × Stmt} (h : net.loweringEnsemble e input output b = .ok q) :
    q.1.tables.toList = b.tables.toList ++ net.tables [e] := by
  unfold loweringEnsemble at h
  split at h
  · cases h
  · rw [← Except.ok.inj h, (Emit.emits_ensemble b e _ _ output).blind]
    simp [tables]

theorem loweringEnsembles_tables {es : List Ensemble} {input output : VarId} {b : Build}
    {q : Build × List Stmt} (h : net.loweringEnsembles input output es b = .ok q) :
    q.1.tables.toList = b.tables.toList ++ net.tables es := by
  induction es generalizing b q with
  | nil =>
    obtain rfl := Except.ok.inj h
    simp [tables]
  | cons e es ih =>
    obtain ⟨here, hhere, h⟩ := bind_eq_ok.1 h
    obtain ⟨below, hbelow, h⟩ := bind_eq_ok.1 h
    obtain rfl := Except.ok.inj h
    rw [ih hbelow, loweringEnsemble_tables hhere]
    simp [tables]

theorem loweringLayers_tables {layers : List (Layer × LayerId)} {last : LayerId} {input : VarId}
    {b : Build} {q : Build × List Stmt} (h : net.loweringLayers last input layers b = .ok q) :
    ∃ es, net.groupings layers = .ok es ∧
      q.1.tables.toList = b.tables.toList ++ net.tables es := by
  induction layers generalizing input b q with
  | nil =>
    obtain rfl := Except.ok.inj h
    exact ⟨[], rfl, by simp [tables]⟩
  | cons p rest ih =>
    obtain ⟨es, hes, h⟩ := bind_eq_ok.1 h
    obtain ⟨here, hhere, h⟩ := bind_eq_ok.1 h
    obtain ⟨below, hbelow, h⟩ := bind_eq_ok.1 h
    obtain rfl := Except.ok.inj h
    obtain ⟨others, hothers, htables⟩ := ih hbelow
    refine ⟨es ++ others, ?_, ?_⟩
    · exact bind_eq_ok.2 ⟨es, hes, bind_eq_ok.2 ⟨others, hothers, rfl⟩⟩
    · rw [htables, loweringEnsembles_tables hhere]
      split <;> simp [tables, Emit.declare]

/-- A kernel has the tables of the ensembles that it computes, and no others. -/
theorem lowering_tables {k : Kernel} (h : net.lowering = .ok k) :
    ∃ es, net.groupings net.loweredLayers = .ok es ∧ k.tables.toList = net.tables es := by
  obtain ⟨_, _, h⟩ := bind_eq_ok.1 h
  obtain ⟨q, hq, h⟩ := bind_eq_ok.1 h
  obtain rfl := Except.ok.inj h
  obtain ⟨es, hes, htables⟩ := loweringLayers_tables hq
  exact ⟨es, hes, by simpa using htables⟩

theorem loweringEnsembles_length {es : List Ensemble} {input output : VarId} {b : Build}
    {q : Build × List Stmt} (h : net.loweringEnsembles input output es b = .ok q) :
    q.2.length = es.length := by
  induction es generalizing b q with
  | nil =>
    obtain rfl := Except.ok.inj h
    rfl
  | cons e es ih =>
    obtain ⟨here, _, h⟩ := bind_eq_ok.1 h
    obtain ⟨below, hbelow, h⟩ := bind_eq_ok.1 h
    obtain rfl := Except.ok.inj h
    simp [ih hbelow]

theorem loweringLayers_length {layers : List (Layer × LayerId)} {last : LayerId} {input : VarId}
    {b : Build} {q : Build × List Stmt} (h : net.loweringLayers last input layers b = .ok q)
    {es : List Ensemble} (hes : net.groupings layers = .ok es) :
    q.2.length = es.length + layers.countP (·.2 ≠ last) := by
  induction layers generalizing input b q es with
  | nil =>
    obtain rfl := Except.ok.inj h
    obtain rfl := Except.ok.inj hes
    rfl
  | cons p rest ih =>
    obtain ⟨first, hfirst, h⟩ := bind_eq_ok.1 h
    obtain ⟨here, hhere, h⟩ := bind_eq_ok.1 h
    obtain ⟨below, hbelow, h⟩ := bind_eq_ok.1 h
    obtain ⟨first', hfirst', hes⟩ := bind_eq_ok.1 hes
    obtain ⟨others, hothers, hes⟩ := bind_eq_ok.1 hes
    obtain rfl := Except.ok.inj h
    obtain rfl := Except.ok.inj hes
    obtain rfl : first = first' := Except.ok.inj (hfirst.symm.trans hfirst')
    have hlength := loweringEnsembles_length hhere
    have hrest := ih hbelow hothers
    by_cases hlast : p.2 = last <;>
      simp [hlast, hlength, hrest, Nat.add_assoc, Nat.add_comm, Nat.add_left_comm]

/-- A kernel has a loop for each ensemble and a definition for each layer but the last. -/
theorem lowering_body_length {k : Kernel} (h : net.lowering = .ok k) {es : List Ensemble}
    (hes : net.groupings net.loweredLayers = .ok es) :
    k.body.length = es.length + net.loweredLayers.countP (·.2 ≠ net.layers.size - 1) := by
  obtain ⟨_, _, h⟩ := bind_eq_ok.1 h
  obtain ⟨q, hq, h⟩ := bind_eq_ok.1 h
  obtain rfl := Except.ok.inj h
  exact loweringLayers_length hq hes

theorem groupings_of_layers {layers : List (Layer × LayerId)} {g : Layer × LayerId → List Ensemble}
    (h : ∀ q ∈ layers, net.grouping q.2 q.1.neurons = .ok (g q)) :
    net.groupings layers = .ok (layers.flatMap g) := by
  induction layers with
  | nil => rfl
  | cons q rest ih =>
    have hrest := ih fun p hp => h p (List.mem_cons_of_mem _ hp)
    exact bind_eq_ok.2 ⟨g q, h q List.mem_cons_self, bind_eq_ok.2 ⟨_, hrest, rfl⟩⟩

theorem Ready.of_lowering (hw : net.WellFormed) (hb : net.Built) {k : Kernel}
    (h : net.lowering = .ok k) : net.Ready := by
  obtain ⟨_, hchecking, _⟩ := bind_eq_ok.1 h
  exact .of_checking hw hb hchecking

/-- The ensembles of some layers are those of one layer after the other. -/
theorem groupings_eq_ok {layers : List (Layer × LayerId)} {es : List Ensemble}
    (h : net.groupings layers = .ok es) : ∃ ess,
      List.Forall₂ (fun q es => net.grouping q.2 q.1.neurons = .ok es) layers ess ∧
        es = ess.flatten := by
  induction layers generalizing es with
  | nil =>
    obtain rfl := Except.ok.inj h
    exact ⟨[], .nil, rfl⟩
  | cons q rest ih =>
    obtain ⟨here, hhere, h⟩ := bind_eq_ok.1 h
    obtain ⟨below, hbelow, h⟩ := bind_eq_ok.1 h
    obtain rfl := Except.ok.inj h
    obtain ⟨ess, hess, rfl⟩ := ih hbelow
    exact ⟨here :: ess, .cons hhere hess, rfl⟩

theorem of_mem_groupings {layers : List (Layer × LayerId)} {es : List Ensemble}
    (h : net.groupings layers = .ok es) {e : Ensemble} (he : e ∈ es) :
    ∃ q ∈ layers, ∃ here, net.grouping q.2 q.1.neurons = .ok here ∧ e ∈ here := by
  obtain ⟨ess, hess, rfl⟩ := groupings_eq_ok h
  obtain ⟨here, hhere, he⟩ := List.mem_flatten.1 he
  obtain ⟨i, hi⟩ := List.mem_iff_getElem?.1 hhere
  obtain ⟨q, hq, hgrouping⟩ := forall₂_getElem? hess.flip hi
  exact ⟨q, List.mem_of_getElem? hq, here, hgrouping, he⟩

theorem Ready.neuron_of_groupings (hr : net.Ready) {layers : List (Layer × LayerId)}
    (hlayers : ∀ q ∈ layers, net.layers[q.2]? = some q.1) {es : List Ensemble}
    (h : net.groupings layers = .ok es) {e : Ensemble} (he : e ∈ es) {n : NeuronId}
    (hn : n ∈ e.neurons) : ∃ x, net.neurons[n]? = some x := by
  obtain ⟨q, hq, here, hhere, he⟩ := of_mem_groupings h he
  have hl := hlayers q hq
  obtain ⟨x, hx, _⟩ := hr.wellFormed.neuron_of_mem hl ((hr.tiles hl hhere).mem he hn)
  exact ⟨x, hx⟩

end Network

end Synapse
