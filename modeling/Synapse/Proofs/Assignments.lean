import Mathlib.Tactic
import Synapse.Proofs.Layout
import Synapse.Proofs.Recording

namespace Synapse

namespace Network

variable {net : Network} {input : VarId} {n : Nat} {e : Ensemble} {c : EnsembleLoop}

theorem Renders.length (h : net.Renders input n e c) :
    c.vars.length = (net.recipe e.representative).locals.length + 1 := by
  simpa using congrArg List.length h.types

/-- Before it stores its result, a loop writes only the variables of its ensemble. -/
theorem Renders.writes_body (h : net.Renders input n e c) {v : Nat}
    (hv : v ∈ Code.allWrites c.body) : n < v ∧ v < n + c.vars.length := by
  obtain ⟨site, _, _, hbody⟩ := h.body
  rw [hbody] at hv
  have hblock := Recipe.of_mem_writes_code hv
  rw [h.length]
  omega

theorem Renders.output_unread (h : net.Renders input n e c) (hinput : input ≠ Kernel.outputVar)
    (hn : 2 ≤ n) (vector : VarId) : Kernel.outputVar ∉ (c.code vector).reads := by
  have hlocal : ∀ i, n + i ≠ Kernel.outputVar := fun i => Nat.ne_of_gt (Nat.lt_add_right i hn)
  obtain ⟨site, rfl, hindex, hbody⟩ := h.body
  have hresult : c.result.Over (· ≠ Kernel.outputVar) := by
    rw [h.result]
    refine Formula.over_var ?_
    rw [List.getLastD_eq_getLast?]
    cases hlast : ((net.recipe e.representative).operands (n + 1)).getLast? with
    | none => exact Nat.zero_ne_one
    | some x =>
      have hle : n + 1 ≤ x.var := Recipe.le_var_operands (List.mem_of_getLast? hlast)
      exact Nat.ne_of_gt ((Nat.lt_succ_of_le (Nat.le_of_succ_le hn)).trans_le hle)
  intro hmem
  simp only [EnsembleLoop.code, Code.reads, Formula.vars, List.nil_append] at hmem
  obtain ⟨d, hd, hmem⟩ := Code.mem_allReads.1 hmem
  rcases List.mem_append.1 hd with hd | hd
  · rw [hbody] at hd
    refine Recipe.reads_code (Q := (· ≠ Kernel.outputVar)) hinput (hindex ▸ hlocal 0)
      Nat.zero_ne_one (fun i => ?_) _ (by simp) _ (Code.mem_allReads.2 ⟨d, hd, hmem⟩) rfl
    rw [Nat.add_assoc]
    exact hlocal (1 + i)
  · rw [List.mem_singleton.1 hd] at hmem
    rcases List.mem_append.1 hmem with hmem | hmem
    · exact hresult _ hmem rfl
    · have heq : Kernel.outputVar = c.index := List.mem_singleton.1 hmem
      rw [h.index] at heq
      exact hlocal 0 heq.symm

theorem RendersAll.block {es : List Ensemble} {cs : List EnsembleLoop}
    (h : net.RendersAll input n es cs) (hc : c ∈ cs) :
    ∃ (m : Nat) (e : Ensemble), net.Renders input m e c ∧ n ≤ m ∧
      m + c.vars.length ≤ n + (cs.flatMap (·.vars)).length := by
  induction h with
  | nil => cases hc
  | @cons n e d es cs hd _ ih =>
    rw [List.flatMap_cons, List.length_append]
    rcases List.mem_cons.1 hc with rfl | hc
    · exact ⟨n, e, hd, Nat.le_refl n, by omega⟩
    · obtain ⟨m, e, hm, hle, hstop⟩ := ih hc
      exact ⟨m, e, hm, (Nat.le_add_right _ _).trans hle, by omega⟩

/-- The vector of a layer is the output, or it is declared before the layer's loops. -/
theorem Places.vector {last : LayerId} {q : Layer × LayerId} {t : LayerCode}
    (h : Places last n q t) : t.vector = 1 ∨ n ≤ t.vector ∧ t.vector < n + t.declared.length := by
  unfold Places at h
  split at h
  · exact .inl h.1
  · rw [h.1, h.2]
    exact .inr ⟨Nat.le_refl n, Nat.lt_succ_self n⟩

theorem LaysOut.vector {last : LayerId} {qs : List (Layer × LayerId)} {ts : List LayerCode}
    (h : net.LaysOut last input n qs ts) {t : LayerCode} (ht : t ∈ ts) :
    t.vector = 1 ∨ n ≤ t.vector := by
  induction h with
  | nil => cases ht
  | cons _ hplaces _ _ _ ih =>
    rcases List.mem_cons.1 ht with rfl | ht
    · exact hplaces.vector.imp_right And.left
    · exact (ih ht).imp_right (Nat.le_add_right _ _).trans

/-- The variables of an ensemble come after the parameters, and no layer's vector is among them. -/
theorem LaysOut.block {last : LayerId} {qs : List (Layer × LayerId)} {ts : List LayerCode}
    (h : net.LaysOut last input n qs ts) (hn : 2 ≤ n) {t : LayerCode} (ht : t ∈ ts)
    (hc : c ∈ t.loops) : ∃ (input : VarId) (m : Nat) (e : Ensemble), net.Renders input m e c ∧
      n ≤ m ∧ ∀ t' ∈ ts, t'.vector < m ∨ m + c.vars.length ≤ t'.vector := by
  induction h with
  | nil => cases ht
  | @cons input n q head es rest ts _ hplaces _ hloops hrest ih =>
    have hlength := head.length_vars
    have hhead := hplaces.vector
    rcases List.mem_cons.1 ht with rfl | ht
    · obtain ⟨m, e, hm, hle, hstop⟩ := hloops.block hc
      refine ⟨input, m, e, hm, by omega, fun t' ht' => ?_⟩
      rcases List.mem_cons.1 ht' with rfl | ht'
      · grind
      · have := hrest.vector ht'
        grind
    · obtain ⟨input', m, e, hm, hle, houtside⟩ := ih (by omega) ht
      refine ⟨input', m, e, hm, by omega, fun t' ht' => ?_⟩
      rcases List.mem_cons.1 ht' with rfl | ht'
      · grind
      · exact houtside t' ht'

/-- Layers in the order of their numbers, up to the last. -/
structure Ascends (last : LayerId) (qs : List (Layer × LayerId)) : Prop where
  pairwise : qs.Pairwise fun p q => p.2 < q.2
  le : ∀ q ∈ qs, q.2 ≤ last

theorem Ascends.tail {last : LayerId} {q : Layer × LayerId} {qs : List (Layer × LayerId)}
    (h : Ascends last (q :: qs)) : Ascends last qs :=
  ⟨h.pairwise.of_cons, fun p hp => h.le p (List.mem_cons_of_mem _ hp)⟩

/-- Only the last of the layers writes to the output. -/
theorem Ascends.ne_last {last : LayerId} {p q : Layer × LayerId} {qs : List (Layer × LayerId)}
    (h : Ascends last (q :: p :: qs)) : q.2 ≠ last := by
  have hlt := List.rel_of_pairwise_cons h.pairwise List.mem_cons_self
  exact Nat.ne_of_lt (hlt.trans_le (h.le p (by simp)))

theorem ascends_loweredLayers (net : Network) :
    Ascends (net.layers.size - 1) net.loweredLayers := by
  have hall : net.layers.toList.zipIdx.Pairwise fun p q => p.2 < q.2 := by
    rw [← List.pairwise_map (f := Prod.snd), List.zipIdx_map_snd]
    exact List.pairwise_lt_range'
  refine ⟨?_, fun q hq => ?_⟩
  · rcases net.loweredLayers_eq with h | ⟨_, _, h⟩
    · rwa [h]
    · rw [h]
      exact hall.sublist (List.drop_sublist _ _)
  · obtain ⟨hlt, _⟩ := Array.getElem?_eq_some_iff.1 (getElem?_of_mem_loweredLayers hq)
    exact Nat.le_sub_one_of_lt hlt

section

variable {last : LayerId} {qs : List (Layer × LayerId)} {ts : List LayerCode}

theorem Places.vector_ne {q : Layer × LayerId} {t : LayerCode} (h : Places last n q t)
    (hn : 2 ≤ n) (hq : q.2 ≠ last) : t.vector ≠ Kernel.outputVar := by
  rw [Places, if_neg hq] at h
  rw [h.1]
  exact Nat.ne_of_gt hn

theorem LaysOut.ne_last {q : Layer × LayerId} {t : LayerCode} (h : net.LaysOut last input n qs ts)
    (hqs : Ascends last (q :: qs)) (ht : t ∈ ts) : q.2 ≠ last := by
  cases h with
  | nil => cases ht
  | cons => exact hqs.ne_last

/-- No two layers have one vector. -/
theorem LaysOut.nodup_vectors (h : net.LaysOut last input n qs ts) (hn : 2 ≤ n)
    (hqs : Ascends last qs) : (ts.map LayerCode.vector).Nodup := by
  induction h with
  | nil => exact List.nodup_nil
  | @cons input n q t es rest ts _ hplaces _ _ hrest ih =>
    rw [List.map_cons, List.nodup_cons]
    refine ⟨fun hmem => ?_, ih (by omega) hqs.tail⟩
    obtain ⟨t', ht', heq⟩ := List.mem_map.1 hmem
    have hvector := hrest.vector ht'
    rw [Places, if_neg (hrest.ne_last hqs ht')] at hplaces
    rw [heq, hplaces.1, LayerCode.vars, List.length_append, hplaces.2,
      List.length_singleton] at hvector
    grind

theorem LaysOut.output_unread (h : net.LaysOut last input n qs ts) (hn : 2 ≤ n)
    (hqs : Ascends last qs) (hinput : input ≠ Kernel.outputVar) :
    Kernel.outputVar ∉ Code.allReads (ts.flatMap LayerCode.code) := by
  induction h with
  | nil => simp [Code.allReads]
  | @cons input n q t es rest ts _ hplaces _ hloops hrest ih =>
    intro hmem
    obtain ⟨d, hd, hmem⟩ := Code.mem_allReads.1 hmem
    rcases List.mem_append.1 hd with hd | hd
    · rcases LayerCode.of_mem_code hd with rfl | ⟨c, hc, rfl⟩
      · simp [Code.reads] at hmem
      · obtain ⟨m, e, hm, hle, _⟩ := hloops.block hc
        exact hm.output_unread hinput (by omega) _ hmem
    · obtain ⟨t', ht', _⟩ := List.mem_flatMap.1 hd
      have hne := hplaces.vector_ne hn (hrest.ne_last hqs ht')
      exact ih (by omega) hqs.tail hne (Code.mem_allReads.2 ⟨d, hd, hmem⟩)

end

end Network

/-- Intervals that follow one another from `a` to `b`, without gaps and without overlaps. -/
inductive Abut : Nat → List (Nat × Nat) → Nat → Prop
  | nil (a : Nat) : Abut a [] a
  | cons {a b c : Nat} {rest : List (Nat × Nat)} (h : a < b) (hrest : Abut b rest c) :
      Abut a ((a, b) :: rest) c

theorem Abut.le {a b : Nat} {ps : List (Nat × Nat)} (h : Abut a ps b) : a ≤ b := by
  induction h with
  | nil => exact Nat.le_refl _
  | cons h _ ih => exact h.le.trans ih

theorem Abut.flatMap_range' {a b : Nat} {ps : List (Nat × Nat)} (h : Abut a ps b) :
    ps.flatMap (fun p => List.range' p.1 (p.2 - p.1)) = List.range' a (b - a) := by
  induction h with
  | nil => simp
  | @cons a b c rest h hrest ih =>
    have hle := hrest.le
    have hmiddle : b = a + (b - a) := by omega
    have hlength : c - a = (b - a) + (c - b) := by omega
    rw [List.flatMap_cons, ih, hlength, ← List.range'_append_1, ← hmiddle]

theorem Network.Tiles.abut {net : Network} {l : LayerId} {p : Nat} {es : List Ensemble}
    {ns : List NeuronId} (h : net.Tiles l p es ns) :
    Abut p (es.map fun e => (e.start, e.stop)) (p + ns.length) := by
  induction h with
  | nil p => exact .nil p
  | @cons e es ns _ _ _ ih =>
    have hstop : e.stop + ns.length = e.start + (e.neurons ++ ns).length := by
      rw [Ensemble.stop, List.length_append, Nat.add_assoc]
    rw [hstop] at ih
    exact .cons (by simp [Ensemble.stop, Ensemble.neurons]) ih

/-- A loop that writes nothing in `vs`, and its index in its header only, before it stores its
result. -/
structure EnsembleLoop.Apart (c : EnsembleLoop) (vs : List VarId) : Prop where
  index : c.index ∉ vs
  body : ∀ v ∈ Code.allWrites c.body, v ∉ vs ∧ v ≠ c.index

/-- What a run writes to the vector of a layer: each element once, in order. -/
def LayerCode.slots (t : LayerCode) : List Write :=
  (if t.vector = Kernel.outputVar then [] else [.define t.vector]) ++
    (List.range t.width).map fun (i : Nat) => .element t.vector i

section

variable {S : Type} {k : Kernel} {I : Interpretation S} {vs : List VarId}

theorem Code.records_append (cs ds : List Code) (σ : Store S) :
    Code.records k I (cs ++ ds) σ = Code.records k I cs σ >>= Code.records k I ds := by
  induction cs generalizing σ with
  | nil =>
    rw [List.nil_append, records, pure_bind]
  | cons c cs ih =>
    rw [List.cons_append, records, records, bind_assoc]
    exact congrArg _ (funext ih)

theorem Code.notes_store {vector index : VarId} (rhs : Formula) {p : Int} (hvector : vector ∈ vs)
    {σ : Store S} (hσ : σ index = some (.scalar (I.intWord p))) :
    ((Code.assign (.element vector (.var index)) rhs).record k I σ).Notes vs [.element vector p]
      fun _ => True := by
  have hwritten : (Formula.element vector (.var index)).written k I σ = [.element vector p] := by
    simp only [Formula.written, Formula.eval, hσ]
    rfl
  rw [record, hwritten]
  refine (Recorded.Notes.of_any _).step fun τ _ => ?_
  refine (Recorded.Notes.note_all fun w hw => ?_).bind fun _ _ => .pure trivial
  rwa [List.mem_singleton.1 hw]

namespace EnsembleLoop

variable {c : EnsembleLoop} {vector : VarId}

/-- One round of a loop stores one element. The index is still there after the body, which does not
write it. -/
theorem notes_round (hvector : vector ∈ vs) (hc : c.Apart vs) (σ : Store S) (p : Int) :
    Recorded.Notes (do
        Recorded.note [.whole c.index]
        let τ ← Code.records k I (c.body ++ [.assign (.element vector (.var c.index)) c.result])
          (σ.set c.index (.scalar (I.intWord p)))
        return τ.leave σ) vs [.element vector p] fun _ => True := by
  refine (Recorded.Notes.note_nil ?_).step fun _ _ => ?_
  · simpa [Write.var] using hc.index
  · rw [Code.records_append, bind_assoc]
    refine (Code.notes_records c.body (fun v hv => (hc.body v hv).1) _).step fun τ hτ => ?_
    have hindex : τ c.index = some (.scalar (I.intWord p)) := by
      rw [hτ _ fun h => (hc.body _ h).2 rfl, Store.set_same]
    simp only [Code.records, bind_pure]
    exact (Code.notes_store c.result hvector hindex).bind fun _ _ => .pure trivial

/-- A loop stores its result once for each index. -/
theorem notes (hvector : vector ∈ vs) (hc : c.Apart vs) (σ : Store S) :
    ((c.code vector).record k I σ).Notes vs
      ((List.range' c.start (c.stop - c.start)).map fun (i : Nat) => .element vector i)
      fun _ => True := by
  have hbound : ∀ n : Nat, (Recorded.of ((Formula.int n).eval k I σ >>= Datum.index)).Notes vs []
      (· = (n : Int)) := fun n => .of fun a ha => (Except.ok.inj ha).symm
  rw [code, Code.record]
  refine (hbound c.start).step fun a ha => (hbound c.stop).step fun b hb => ?_
  subst ha hb
  have hrounds := Recorded.Notes.foldlM
    (fun (τ : Store S) (i : Nat) (_ : True) =>
      notes_round (k := k) (I := I) hvector hc τ (c.start + i))
    (List.range ((c.stop : Int) - c.start).toNat) (b := σ) trivial
  rw [Int.toNat_sub, ← List.map_eq_flatMap] at hrounds
  rw [Int.toNat_sub, List.range'_eq_map_range, List.map_map]
  exact hrounds

end EnsembleLoop

theorem notes_loops {vector : VarId} (hvector : vector ∈ vs) {cs : List EnsembleLoop}
    (h : ∀ c ∈ cs, c.Apart vs) (σ : Store S) :
    (Code.records k I (cs.map (·.code vector)) σ).Notes vs
      ((cs.flatMap fun c => List.range' c.start (c.stop - c.start)).map
        fun (i : Nat) => .element vector i) fun _ => True := by
  induction cs generalizing σ with
  | nil =>
    rw [List.map_nil, Code.records]
    exact .pure trivial
  | cons c cs ih =>
    rw [List.map_cons, Code.records, List.flatMap_cons, List.map_append]
    refine (EnsembleLoop.notes hvector (h c List.mem_cons_self) σ).bind fun τ _ => ?_
    exact ih (fun c hc => h c (List.mem_cons_of_mem _ hc)) τ

namespace LayerCode

/-- A layer fills its vector. -/
theorem notes {t : LayerCode} (hvector : t.vector ∈ vs) (h : ∀ c ∈ t.loops, c.Apart vs)
    (htiles : Abut 0 (t.loops.map fun c => (c.start, c.stop)) t.width) (σ : Store S) :
    (Code.records k I t.code σ).Notes vs t.slots fun _ => True := by
  have hloops : ∀ σ : Store S, (Code.records k I (t.loops.map (·.code t.vector)) σ).Notes vs
      ((List.range t.width).map fun (i : Nat) => .element t.vector i) fun _ => True := by
    intro σ
    have hrange := htiles.flatMap_range'
    rw [List.flatMap_map, Nat.sub_zero, ← List.range_eq_range'] at hrange
    rw [← hrange]
    exact notes_loops hvector h σ
  rw [code, slots]
  split
  · exact hloops σ
  · rw [Code.records, Code.record]
    refine ((Recorded.Notes.note_all fun w hw => ?_).bind
      fun _ _ => .pure (Q := fun _ => True) trivial).bind fun τ _ => hloops τ
    rwa [List.mem_singleton.1 hw]

/-- The layers are filled one after the other. -/
theorem notes_all {ts : List LayerCode} (hvector : ∀ t ∈ ts, t.vector ∈ vs)
    (h : ∀ t ∈ ts, ∀ c ∈ t.loops, c.Apart vs)
    (htiles : ∀ t ∈ ts, Abut 0 (t.loops.map fun c => (c.start, c.stop)) t.width) (σ : Store S) :
    (Code.records k I (ts.flatMap code) σ).Notes vs (ts.flatMap slots) fun _ => True := by
  induction ts generalizing σ with
  | nil =>
    rw [List.flatMap_nil, Code.records]
    exact .pure trivial
  | cons t ts ih =>
    rw [List.flatMap_cons, List.flatMap_cons, Code.records_append]
    have hmem : ∀ t' ∈ ts, t' ∈ t :: ts := fun t' ht' => List.mem_cons_of_mem _ ht'
    refine (notes (hvector t List.mem_cons_self) (h t List.mem_cons_self)
      (htiles t List.mem_cons_self) σ).bind fun τ _ => ?_
    exact ih (fun t' ht' => hvector t' (hmem t' ht')) (fun t' ht' => h t' (hmem t' ht'))
      (fun t' ht' => htiles t' (hmem t' ht')) τ

end LayerCode

end

namespace LayerCode

/-- The parameters of a kernel and the vectors of its layers. -/
def shared (ts : List LayerCode) : List VarId :=
  Kernel.inputVar :: Kernel.outputVar :: ts.map vector

/-- Each slot of each layer is written once. -/
structure WritesOnce (k : Kernel) (ts : List LayerCode) : Prop where
  /-- No two layers have one vector. -/
  distinct : (Kernel.inputVar :: ts.map vector).Nodup
  /-- A loop writes nothing that is shared before it stores its result. -/
  apart : ∀ t ∈ ts, ∀ c ∈ t.loops, c.Apart (shared ts)
  input_unwritten : Kernel.inputVar ∉ Code.allWrites (ts.flatMap code)
  output_unread : Kernel.outputVar ∉ Code.allReads (ts.flatMap code)
  slots_nodup : (ts.flatMap slots).Nodup
  /-- When a run has come to the end of a layer, the slots of all layers up to there have been
  written, one by one, and nothing else that is shared. A run that stops at a fault has written a
  first part of that. -/
  runs : ∀ {S : Type} (I : Interpretation S) (input : List S) (done rest : List LayerCode),
    ts = done ++ rest →
      (Code.records k I (done.flatMap code) (Kernel.start input)).log.filter (·.var ∈ shared ts) <+:
        done.flatMap slots ∧
      ∀ σ, Code.execs k I (done.flatMap code) (Kernel.start input) = .ok σ →
        (Code.records k I (done.flatMap code) (Kernel.start input)).log.filter
          (·.var ∈ shared ts) = done.flatMap slots

theorem var_of_mem_slots {t : LayerCode} {w : Write} (h : w ∈ t.slots) : w.var = t.vector := by
  rw [slots] at h
  rcases List.mem_append.1 h with h | h
  · split at h
    · cases h
    · rw [List.mem_singleton.1 h]
      rfl
  · obtain ⟨i, _, rfl⟩ := List.mem_map.1 h
    rfl

theorem nodup_slots {ts : List LayerCode} (h : (ts.map vector).Nodup) :
    (ts.flatMap slots).Nodup := by
  rw [List.nodup_flatMap]
  constructor
  · intro t _
    refine List.Nodup.append ?_ ?_ ?_
    · split
      · exact List.nodup_nil
      · exact List.nodup_singleton _
    · refine List.nodup_range.map fun i j hij => ?_
      simpa using hij
    · intro w hw hw'
      obtain ⟨i, _, rfl⟩ := List.mem_map.1 hw'
      split at hw
      · cases hw
      · cases List.mem_singleton.1 hw
  · refine (List.pairwise_map.1 h).imp fun hne w hw hw' => hne ?_
    rw [← var_of_mem_slots hw, ← var_of_mem_slots hw']

end LayerCode

namespace Network.LaysOut

variable {net : Network} {last : LayerId} {qs : List (Layer × LayerId)} {ts : List LayerCode}

theorem apart (h : net.LaysOut last Kernel.inputVar 2 qs ts) {t : LayerCode} (ht : t ∈ ts)
    {c : EnsembleLoop} (hc : c ∈ t.loops) : c.Apart (LayerCode.shared ts) := by
  obtain ⟨input, m, e, hm, hle, houtside⟩ := h.block (Nat.le_refl 2) ht hc
  have hlocal : ∀ v : Nat, m ≤ v → v < m + c.vars.length → v ∉ LayerCode.shared ts := by
    intro v hmv hv hmem
    simp only [LayerCode.shared, List.mem_cons] at hmem
    rcases hmem with rfl | rfl | hmem
    · exact absurd hmv (Nat.not_le_of_lt (Nat.zero_lt_of_lt hle))
    · exact absurd hmv (Nat.not_le_of_lt hle)
    · obtain ⟨t', ht', rfl⟩ := List.mem_map.1 hmem
      have := houtside t' ht'
      grind
  have hlength := hm.length
  refine ⟨?_, fun v hv => ?_⟩
  · rw [hm.index]
    exact hlocal m (Nat.le_refl m) (by omega)
  · obtain ⟨hmv, hv⟩ := hm.writes_body hv
    rw [hm.index]
    exact ⟨hlocal v hmv.le hv, Nat.ne_of_gt hmv⟩

theorem vector_ne_input (h : net.LaysOut last Kernel.inputVar 2 qs ts) {t : LayerCode}
    (ht : t ∈ ts) : t.vector ≠ Kernel.inputVar := by
  rcases h.vector ht with hout | hle
  · rw [hout]
    exact Nat.one_ne_zero
  · exact Nat.ne_of_gt (Nat.zero_lt_of_lt hle)

theorem input_unwritten (h : net.LaysOut last Kernel.inputVar 2 qs ts) :
    Kernel.inputVar ∉ Code.allWrites (ts.flatMap LayerCode.code) := by
  intro hmem
  obtain ⟨d, hd, hmem⟩ := Code.mem_allWrites.1 hmem
  obtain ⟨t, ht, hd⟩ := List.mem_flatMap.1 hd
  rcases LayerCode.of_mem_code hd with rfl | ⟨c, hc, rfl⟩
  · exact h.vector_ne_input ht (List.mem_singleton.1 hmem).symm
  · have hapart := h.apart ht hc
    simp only [EnsembleLoop.code, Code.writes, List.mem_cons] at hmem
    rcases hmem with heq | hmem
    · exact hapart.index (heq ▸ List.mem_cons_self)
    · obtain ⟨d, hd, hmem⟩ := Code.mem_allWrites.1 hmem
      rcases List.mem_append.1 hd with hd | hd
      · exact (hapart.body _ (Code.mem_allWrites.2 ⟨d, hd, hmem⟩)).1 List.mem_cons_self
      · rw [List.mem_singleton.1 hd] at hmem
        exact h.vector_ne_input ht (List.mem_singleton.1 hmem).symm

/-- A kernel that is laid out layer by layer writes each slot once, if its loops tile the layers. -/
theorem writesOnce (h : net.LaysOut last Kernel.inputVar 2 qs ts) (hqs : Ascends last qs)
    (htiles : ∀ t ∈ ts, Abut 0 (t.loops.map fun c => (c.start, c.stop)) t.width) (k : Kernel) :
    LayerCode.WritesOnce k ts := by
  have hvectors := h.nodup_vectors (Nat.le_refl 2) hqs
  refine ⟨List.nodup_cons.2 ⟨fun hmem => ?_, hvectors⟩, fun t ht c hc => h.apart ht hc,
    h.input_unwritten, h.output_unread (Nat.le_refl 2) hqs Nat.zero_ne_one,
    LayerCode.nodup_slots hvectors, ?_⟩
  · obtain ⟨t, ht, heq⟩ := List.mem_map.1 hmem
    exact h.vector_ne_input ht heq
  · rintro S I input done rest rfl
    have hshared : ∀ t ∈ done, t.vector ∈ LayerCode.shared (done ++ rest) := by
      intro t ht
      simp only [LayerCode.shared, List.map_append, List.mem_cons, List.mem_append]
      exact .inr (.inr (.inl (List.mem_map_of_mem ht)))
    have hnotes := LayerCode.notes_all (k := k) (I := I) hshared
      (fun t ht c hc => h.apart (List.mem_append_left _ ht) hc)
      (fun t ht => htiles t (List.mem_append_left _ ht)) (Kernel.start input)
    refine ⟨hnotes.log_prefix, fun σ hσ => hnotes.log_eq (a := σ) ?_⟩
    rw [← hσ]
    exact Code.tracks_records _ _

end Network.LaysOut

/-- In a lowered kernel every slot of every layer is written exactly once in a run, layer after
layer. -/
theorem layer_slots_written_once {s s' : Session} (hs : s.Reachable) {k : Kernel}
    (hk : Pass.lower s = .ok k s') :
    ∃ ts : List LayerCode,
      codesOf k.arena.nodes k.body = some (ts.flatMap LayerCode.code) ∧
      List.Forall₂ (fun q t => (∃ es, s.Compiles k q es t) ∧
        Abut 0 (t.loops.map fun c => (c.start, c.stop)) q.1.neurons.length)
        s.net.loweredLayers ts ∧
      LayerCode.WritesOnce k ts := by
  have hlowering := hs.lowering_eq hk
  have hr := Network.Ready.of_lowering hs.wellFormed hs.built hlowering
  obtain ⟨params, ts, hts, hparams, hvars, hcodes⟩ := Network.lowering_laysOut hlowering
  have hlayers : List.Forall₂ (fun q t => (∃ es, s.Compiles k q es t) ∧
      Abut 0 (t.loops.map fun c => (c.start, c.stop)) q.1.neurons.length)
      s.net.loweredLayers ts := by
    apply (hs.compiles hr hts hparams hvars).imp
    rintro q t ⟨input, n, es, hc, htiles, _⟩
    refine ⟨⟨es, hc⟩, ?_⟩
    have hbounds : List.Forall₂ Eq (t.loops.map fun c => (c.start, c.stop))
        (es.map fun e => (e.start, e.stop)) := by
      rw [List.forall₂_map_left_iff, List.forall₂_map_right_iff]
      exact hc.bounds.flip.imp fun c e h => Prod.ext h.1 h.2
    rw [List.forall₂_eq_eq_eq] at hbounds
    have habut := htiles.abut
    rwa [Nat.zero_add, ← hbounds] at habut
  refine ⟨ts, hcodes, hlayers, hts.writesOnce s.net.ascends_loweredLayers (fun t ht => ?_) k⟩
  obtain ⟨i, hi⟩ := List.mem_iff_getElem?.1 ht
  obtain ⟨q, _, ⟨es, hc⟩, habut⟩ := forall₂_getElem? hlayers.flip hi
  rwa [hc.width]

/-- Three hidden neurons in two ensembles, and an output that reads all of them. -/
def staged : Session := .ofRequests [
  .addLayer, .addNeuron 0 .input, .addNeuron 0 .input,
  .addLayer, .addNeuron 1 .hidden, .addNeuron 1 .hidden, .addNeuron 1 .hidden,
  .addLayer, .addNeuron 2 .output,
  .connect 0 2, .connect 1 2, .connect 0 3, .connect 1 3, .connect 1 4,
  .connect 2 5, .connect 3 5, .connect 4 5,
  .setForward 2 { above := [.input 2, .unary .minus 0], last := .reduce .max 1 },
  .setForward 3 { above := [.input 3, .unary .minus 0], last := .reduce .max 1 },
  .setForward 4 { above := [.input 4, .unary .minus 0], last := .reduce .sum 1 },
  .setForward 5 { above := [.input 5], last := .reduce .sum 0 }]

theorem staged_slots_written_once : staged.Reachable ∧ ∃ k s', Pass.lower staged = .ok k s' ∧
    k.body.length = 4 ∧
    k.vars.toList.map Variable.name = ["input", "output", "layer1", "idx0", "t0", "t1", "t2", "t3",
      "idx1", "t4", "idx2", "idx3", "t5", "t6", "t7", "idx4", "t8", "idx5", "idx6", "t9", "t10",
      "t11", "t12", "t13", "idx7"] ∧
    ∃ ts : List LayerCode,
      codesOf k.arena.nodes k.body = some (ts.flatMap LayerCode.code) ∧
      List.Forall₂ (fun q t => (∃ es, staged.Compiles k q es t) ∧
        Abut 0 (t.loops.map fun c => (c.start, c.stop)) q.1.neurons.length)
        staged.net.loweredLayers ts ∧
      LayerCode.WritesOnce k ts := by
  have hs : staged.Reachable := Session.reachable_ofRequests _
  have hkernel : staged.kernel?.map (fun k => (k.body.length, k.vars.toList.map Variable.name)) =
      some (4, ["input", "output", "layer1", "idx0", "t0", "t1", "t2", "t3", "idx1", "t4", "idx2",
        "idx3", "t5", "t6", "t7", "idx4", "t8", "idx5", "idx6", "t9", "t10", "t11", "t12", "t13",
        "idx7"]) := by
    decide +kernel
  obtain ⟨k, hk, hkernel⟩ := Option.map_eq_some_iff.1 hkernel
  obtain ⟨hlength, hnames⟩ := Prod.mk.inj hkernel
  obtain ⟨s', hlower⟩ := Session.kernel?_eq_some.1 hk
  exact ⟨hs, k, s', hlower, hlength, hnames, layer_slots_written_once hs hlower⟩

end Synapse
