import Mathlib.Tactic
import Synapse.Proofs.Emission
import Synapse.Proofs.Recipes

namespace Synapse

section

variable {S : Type}

/-- The outcome of a run: it ends in a store that fits the value `o`, or if there is none, it stops
at an index out of range. -/
def Runs {α : Type} (r : Except Fault (Store S)) (o : Option α) (Q : α → Store S → Prop) : Prop :=
  match o with
  | some a => ∃ σ, r = .ok σ ∧ Q a σ
  | none => ∃ v i, r = .error (.outOfRange v i)

namespace Runs

variable {α β : Type} {r : Except Fault (Store S)} {o : Option α} {P : α → Store S → Prop}

theorem ok {σ : Store S} {a : α} (hr : r = .ok σ) (h : P a σ) : Runs r (some a) P := ⟨σ, hr, h⟩

theorem imp {Q : α → Store S → Prop} (h : Runs r o P) (hpq : ∀ a σ, P a σ → Q a σ) :
    Runs r o Q := by
  cases o with
  | none => exact h
  | some a =>
    obtain ⟨σ, hr, hp⟩ := h
    exact ⟨σ, hr, hpq a σ hp⟩

theorem imp_pure {g : α → β} {Q : β → Store S → Prop} (h : Runs r o P)
    (hpq : ∀ a σ, P a σ → Q (g a) σ) : Runs r (o.bind fun a => some (g a)) Q := by
  cases o with
  | none => exact h
  | some a =>
    obtain ⟨σ, hr, hp⟩ := h
    exact ⟨σ, hr, hpq a σ hp⟩

theorem bind {f : Store S → Except Fault (Store S)} {g : α → Option β} {Q : β → Store S → Prop}
    (h : Runs r o P) (hf : ∀ a σ, P a σ → Runs (f σ) (g a) Q) : Runs (r >>= f) (o.bind g) Q := by
  cases o with
  | none =>
    obtain ⟨v, i, rfl⟩ := h
    exact ⟨v, i, rfl⟩
  | some a =>
    obtain ⟨σ, rfl, hp⟩ := h
    exact hf a σ hp

theorem map {f : Store S → Store S} {Q : α → Store S → Prop} (h : Runs r o P)
    (hf : ∀ a σ, P a σ → Q a (f σ)) : Runs (f <$> r) o Q := by
  cases o with
  | none =>
    obtain ⟨v, i, rfl⟩ := h
    exact ⟨v, i, rfl⟩
  | some a =>
    obtain ⟨σ, rfl, hp⟩ := h
    exact ⟨f σ, rfl, hf a σ hp⟩

/-- A loop that computes one value in each round. -/
theorem range {f : Store S → Nat → Except Fault (Store S)} {g : Nat → Option α}
    {P : List α → Store S → Prop} {n : Nat} {σ : Store S}
    (h : ∀ as σ, as.length < n → P as σ →
      Runs (f σ as.length) (g as.length) fun a σ' => P (as ++ [a]) σ')
    (hσ : P [] σ) :
    Runs ((List.range n).foldlM f σ) ((List.range n).mapM g)
      fun as σ' => as.length = n ∧ P as σ' := by
  induction n with
  | zero => exact ⟨σ, rfl, rfl, hσ⟩
  | succ n ih =>
    rw [List.range_succ, List.foldlM_append, List.mapM_append]
    refine (ih fun as σ has hp => h as σ (by omega) hp).bind fun as τ hp => ?_
    obtain ⟨rfl, hp⟩ := hp
    simp only [List.foldlM_cons, List.foldlM_nil, List.mapM_cons, List.mapM_nil]
    have hone := h as τ (by omega) hp
    cases hg : g as.length with
    | none =>
      rw [hg] at hone
      obtain ⟨v, i, hf⟩ := hone
      exact ⟨v, i, by rw [hf]; rfl⟩
    | some a =>
      rw [hg] at hone
      obtain ⟨σ', hf, hp'⟩ := hone
      exact ⟨σ', by rw [hf]; rfl, by simp, hp'⟩

end Runs

namespace Store

@[simp] theorem set_same (σ : Store S) (v : VarId) (c : Cell S) : σ.set v c v = some c := by
  simp [set]

@[simp] theorem set_other (σ : Store S) {v w : VarId} (c : Cell S) (h : w ≠ v) :
    σ.set v c w = σ w := by
  simp [set, h]

@[simp] theorem set_set (σ : Store S) (v : VarId) (c d : Cell S) :
    (σ.set v c).set v d = σ.set v d := by
  simp [set]

/-- After a round of a loop that writes `v` only, its index and all that was new is forgotten. -/
theorem leave_eq_set {σ τ : Store S} {v : VarId} {c d : Cell S} (hv : σ v = some c)
    (hτ : τ v = some d) (h : ∀ w, w ≠ v → (σ w).isSome → τ w = σ w) : τ.leave σ = σ.set v d := by
  funext w
  unfold leave
  by_cases hw : w = v
  · simp [hw, hv, hτ]
  · rw [set_other _ _ hw]
    cases hs : σ w with
    | none => rfl
    | some x => simp [h w hw (by simp [hs]), hs]

/-- The first elements of a vector are filled with the given values. -/
def Filled (slots : Nat → Option (Word S)) (as : List S) : Prop :=
  ∀ i a, as[i]? = some a → ∃ w, slots i = some w ∧ w.value = a

theorem filled_nil (slots : Nat → Option (Word S)) : Filled slots [] := by
  simp [Filled]

theorem Filled.concat {slots : Nat → Option (Word S)} {as : List S} (h : Filled slots as)
    (w : Word S) : Filled (Function.update slots as.length (some w)) (as ++ [w.value]) := by
  intro i a hi
  by_cases he : i = as.length
  · subst he
    simp only [List.getElem?_concat_length, Option.some.injEq] at hi
    exact ⟨w, by simp, hi⟩
  · have hlt : i < as.length := by
      have := (List.getElem?_eq_some_iff.1 hi).1
      simp at this
      omega
    rw [List.getElem?_append_left hlt] at hi
    rw [Function.update_of_ne he]
    exact h i a hi

/-- The variable `v` holds the value `d`. A vector has the declared length. -/
def Holds (k : Kernel) (σ : Store S) (v : VarId) : Datum S → Prop
  | .scalar a => ∃ w, σ v = some (.scalar w) ∧ w.value = a
  | .vector as => k.length v = as.length ∧ ∃ slots, σ v = some (.vector slots) ∧ Filled slots as

theorem Holds.congr {k : Kernel} {σ τ : Store S} {v : VarId} {d : Datum S} (h : σ.Holds k v d)
    (hv : τ v = σ v) : τ.Holds k v d := by
  cases d <;> simpa only [Holds, hv] using h

end Store

namespace Datum

/-- The element of a vector at an index; a scalar is the same everywhere. -/
def get? : Datum S → Option Nat → Option S
  | scalar a, _ => some a
  | vector as, some i => as[i]?
  | vector _, none => none

theorem get?_map {T : Type} (f : S → T) (d : Datum S) (i : Option Nat) :
    (d.map f).get? i = (d.get? i).map f := by
  cases d <;> cases i <;> simp [map, get?]

theorem get?_zip (f : S → S → S) (d e : Datum S) (i : Option Nat) :
    (d.zip f e).get? i = (d.get? i).bind fun a => (e.get? i).map (f a) := by
  match d, e, i with
  | scalar a, scalar b, _ => rfl
  | scalar a, vector bs, none => rfl
  | scalar a, vector bs, some i => simp [zip, get?]
  | vector as, scalar b, none => rfl
  | vector as, scalar b, some i => cases h : as[i]? <;> simp [zip, get?, h]
  | vector as, vector bs, none => rfl
  | vector as, vector bs, some i =>
    cases h : as[i]? <;> cases h' : bs[i]? <;> simp [zip, get?, List.getElem?_zipWith, h, h']

/-- A value of the given type. -/
def Fits : Datum S → Extent → Prop
  | scalar _, .scalar _ => True
  | vector as, .vector _ n => as.length = n
  | _, _ => False

theorem Fits.eq_scalar {d : Datum S} {s : Scalar} (h : d.Fits (.scalar s)) :
    ∃ a, d = .scalar a := by
  cases d with
  | scalar a => exact ⟨a, rfl⟩
  | vector as => cases h

theorem Fits.eq_vector {d : Datum S} {s : Scalar} {n : Nat} (h : d.Fits (.vector s n)) :
    ∃ as, d = .vector as ∧ as.length = n := by
  cases d with
  | scalar a => cases h
  | vector as => exact ⟨as, rfl, h⟩

theorem Fits.eq_cons {d : Datum S} {s : Scalar} {n : Nat} (h : d.Fits (.vector s (n + 1))) :
    ∃ a as, d = .vector (a :: as) ∧ as.length = n := by
  obtain ⟨as, rfl, has⟩ := h.eq_vector
  cases as with
  | nil => cases has
  | cons a as => exact ⟨a, as, rfl, Nat.succ.inj has⟩

end Datum

variable {k : Kernel} {I : Interpretation S} {σ : Store S}

theorem Kernel.length_eq {v : VarId} {s : Scalar} {m : Nat}
    (h : k.vars[v]?.map Variable.ty = some (.vector s (some m))) : k.length v = m := by
  obtain ⟨x, hx, hty⟩ := Option.map_eq_some_iff.1 h
  simp [Kernel.length, hx, hty, Ty.len]

theorem Kernel.length_vectorOf {v : VarId} {s : Scalar} {m : Nat}
    (h : k.vars[v]?.map Variable.ty = some (.vectorOf s m)) (hm : m < UInt32.size) :
    k.length v = m := by
  rw [Kernel.length_eq h, Nat.mod_eq_of_lt hm]

theorem Code.exec_loop (v : VarId) (a b : Int) (body : List Code) (σ : Store S) :
    (Code.loop v (.int a) (.int b) body).exec k I σ =
      (List.range (b - a).toNat).foldlM (fun σ (i : Nat) => (fun τ => Store.leave τ σ) <$>
        Code.execs k I body (σ.set v (.scalar (I.intWord (a + i))))) σ := by
  rw [Code.exec]
  simp only [Formula.eval, Interpretation.literalWords, Interpretation.intWord, Datum.index,
    map_eq_pure_bind]
  rfl

namespace Formula

theorem indexes_int (n : Int) : (int n).Indexes k I σ n := ⟨I.intWord n, rfl, rfl⟩

theorem yields_var {v : VarId} {a : S} (h : σ.Holds k v (.scalar a)) : (var v).Yields k I σ a := by
  obtain ⟨w, hw, ha⟩ := h
  exact ⟨w, by simp [eval, hw], ha⟩

theorem eval_element {v : VarId} {φ : Formula} {i : Int} (h : φ.Indexes k I σ i) :
    (element v φ).eval k I σ = (k.slots σ v i >>= fun slots =>
      match slots i.toNat with
      | none => .error (.undefined v)
      | some w => .ok (.scalar w)) := by
  obtain ⟨⟨a, n⟩, hw, rfl⟩ := h
  rw [eval, hw]
  rfl

theorem eval_entry {t : TableId} {φ : Formula} {i : Int} {c : Literal} (h : φ.Indexes k I σ i)
    (ht : k.entry? t i = some c) : (entry t φ).eval k I σ = .ok (I.literalWords c) := by
  obtain ⟨⟨a, n⟩, hw, rfl⟩ := h
  rw [eval, hw]
  simp only [bind, Except.bind, Datum.index, ht]

theorem yields_element {v : VarId} {φ : Formula} {i : Nat} {as : List S} {a : S}
    (hφ : φ.Indexes k I σ i) (hv : σ.Holds k v (.vector as)) (ha : as[i]? = some a) :
    (element v φ).Yields k I σ a := by
  obtain ⟨hlen, slots, hσ, hslots⟩ := hv
  obtain ⟨w, hw, rfl⟩ := hslots i a ha
  have hi : i < as.length := (List.getElem?_eq_some_iff.1 ha).1
  refine ⟨w, ?_, rfl⟩
  rw [eval_element hφ, Kernel.slots, if_pos (by omega), hσ]
  simp [bind, Except.bind, hw]

theorem element_outOfRange {v : VarId} {φ : Formula} {i : Nat} {as : List S}
    (hφ : φ.Indexes k I σ i) (hv : σ.Holds k v (.vector as)) (ha : as[i]? = none) :
    (element v φ).eval k I σ = .error (.outOfRange v i) := by
  have hi : as.length ≤ i := List.getElem?_eq_none_iff.1 ha
  rw [eval_element hφ, Kernel.slots, if_neg (by have := hv.1; omega)]
  rfl

theorem Yields.unary {φ : Formula} {a : S} (h : φ.Yields k I σ a) (op : Unary) :
    (Formula.unary op φ).Yields k I σ (I.unary op a) := by
  obtain ⟨w, hw, rfl⟩ := h
  exact ⟨I.unaryWord op w, by rw [eval, hw]; rfl, rfl⟩

theorem Yields.binary {φ ψ : Formula} {a b : S} (hφ : φ.Yields k I σ a) (hψ : ψ.Yields k I σ b)
    (op : Binary) : (Formula.binary op φ ψ).Yields k I σ (I.binary op a b) := by
  obtain ⟨v, hv, rfl⟩ := hφ
  obtain ⟨w, hw, rfl⟩ := hψ
  exact ⟨I.binaryWord op v w, by rw [eval, hv, hw]; rfl, rfl⟩

theorem Yields.activate {φ : Formula} {a : S} (h : φ.Yields k I σ a) (name : String) :
    (Formula.activate name φ).Yields k I σ (I.activate name a) := by
  obtain ⟨w, hw, rfl⟩ := h
  exact ⟨I.activateWord name w, by rw [eval, hw]; rfl, rfl⟩

theorem Yields.assign_var {v : VarId} {φ : Formula} {a : S} (h : φ.Yields k I σ a) :
    ∃ w, (Code.assign (.var v) φ).exec k I σ = .ok (σ.set v (.scalar w)) ∧ w.value = a := by
  obtain ⟨w, hw, ha⟩ := h
  refine ⟨w, ?_, ha⟩
  rw [Code.exec, hw]
  rfl

theorem Indexes.assign_var {v : VarId} {φ : Formula} {i : Int} (h : φ.Indexes k I σ i) :
    ∃ w, (Code.assign (.var v) φ).exec k I σ = .ok (σ.set v (.scalar w)) ∧ w.integer = some i := by
  obtain ⟨w, hw, ha⟩ := h
  refine ⟨w, ?_, ha⟩
  rw [Code.exec, hw]
  rfl

theorem Yields.assign_element {v : VarId} {φ ψ : Formula} {i : Nat} {a : S}
    {slots : Nat → Option (Word S)} (hψ : ψ.Indexes k I σ i) (hσ : σ v = some (.vector slots))
    (hi : i < k.length v) (h : φ.Yields k I σ a) :
    ∃ w, (Code.assign (.element v ψ) φ).exec k I σ =
      .ok (σ.set v (.vector (Function.update slots i (some w)))) ∧ w.value = a := by
  obtain ⟨w, hw, ha⟩ := h
  obtain ⟨⟨b, n⟩, hψ, rfl⟩ := hψ
  refine ⟨w, ?_, ha⟩
  rw [Code.exec, hw]
  change (assign k I σ (.scalar w) (.element v ψ)) = _
  simp only [assign, Datum.word, hψ, bind, Except.bind, Datum.index, Kernel.slots]
  rw [if_pos (by omega), hσ]
  rfl

end Formula

/-- A round of a loop that stores into the variable `n`, with its index after it. -/
theorem leave_round {n : VarId} {c d x : Cell S} (hfresh : σ (n + 1) = none) :
    (((σ.set n c).set (n + 1) x).set n d).leave (σ.set n c) = σ.set n d := by
  rw [Store.leave_eq_set (v := n) (c := c) (d := d) (by simp) (by simp), Store.set_set]
  intro w hw hs
  rw [Store.set_other _ _ hw] at hs
  have hne : w ≠ n + 1 := by
    rintro rfl
    simp [hfresh] at hs
  simp [hw, hne]

/-- A vector is filled element by element. -/
theorem exec_fill {n : VarId} {φ : Formula} {as : List S} (hfresh : σ (n + 1) = none)
    (hlen : k.length n = as.length)
    (hφ : ∀ (i : Nat) (a : S) (slots : Nat → Option (Word S)), as[i]? = some a →
      φ.Yields k I ((σ.set n (.vector slots)).set (n + 1) (.scalar (I.intWord i))) a) :
    ∃ slots, Code.execs k I [.define n, .loop (n + 1) (.int 0) (.int as.length)
        [.assign (.element n (.var (n + 1))) φ]] σ = .ok (σ.set n (.vector slots)) ∧
      (σ.set n (.vector slots)).Holds k n (.vector as) := by
  rw [Code.execs_cons (by rw [Code.exec]), Code.execs_singleton, Code.exec_loop]
  have hrun := Runs.range
    (f := fun (σ : Store S) (i : Nat) => (fun τ => Store.leave τ σ) <$> Code.execs k I
      [.assign (.element n (.var (n + 1))) φ] (σ.set (n + 1) (.scalar (I.intWord (0 + i)))))
    (g := (as[·]?)) (n := as.length) (σ := σ.set n (.vector fun _ => none))
    (P := fun bs τ => ∃ slots, τ = σ.set n (.vector slots) ∧ Store.Filled slots bs)
    ?_ ⟨_, rfl, Store.filled_nil _⟩
  · rw [mapM_range_getElem?] at hrun
    obtain ⟨τ, hτ, _, slots, rfl, hslots⟩ := hrun
    exact ⟨slots, by simpa using hτ, hlen, slots, by simp, hslots⟩
  · rintro bs τ hbs ⟨slots, rfl, hslots⟩
    rw [List.getElem?_eq_getElem hbs, zero_add]
    set τ := (σ.set n (.vector slots)).set (n + 1) (.scalar (I.intWord bs.length)) with hτ
    have hvector : τ n = some (.vector slots) := by simp [hτ]
    have hindex : (Formula.var (n + 1)).Indexes k I τ bs.length :=
      Formula.indexes_var (by simp [hτ])
    obtain ⟨w, hexec, hw⟩ := (hφ _ _ slots (List.getElem?_eq_getElem hbs)).assign_element hindex
      hvector (by omega)
    refine ⟨_, ?_, Function.update slots bs.length (some w), rfl, hw ▸ hslots.concat w⟩
    rw [Code.execs_singleton, hexec]
    exact congrArg Except.ok (leave_round hfresh)

/-- A vector is folded into its first element. -/
theorem exec_fold (op : Binary) {n x : VarId} {a : S} {as : List S} (hfresh : σ (n + 1) = none)
    (hxn : x < n) (hx : σ.Holds k x (.vector (a :: as))) :
    ∃ w, Code.execs k I [.assign (.var n) (.element x (.int 0)),
        .loop (n + 1) (.int 1) (.int (a :: as).length)
          [.assign (.var n) (.binary op (.var n) (.element x (.var (n + 1))))]] σ =
        .ok (σ.set n (.scalar w)) ∧ w.value = as.foldl (I.binary op) a := by
  have hzero : (Formula.int 0).Indexes k I σ (0 : Nat) := Formula.indexes_int 0
  obtain ⟨v, hexec, hv⟩ := (Formula.yields_element hzero hx rfl).assign_var (v := n)
  rw [Code.execs_cons hexec, Code.execs_singleton, Code.exec_loop]
  have hrun := Runs.range
    (f := fun (σ : Store S) (i : Nat) => (fun τ => Store.leave τ σ) <$> Code.execs k I
      [.assign (.var n) (.binary op (.var n) (.element x (.var (n + 1))))]
      (σ.set (n + 1) (.scalar (I.intWord (1 + i)))))
    (g := (as[·]?)) (n := as.length) (σ := σ.set n (.scalar v))
    (P := fun bs τ => ∃ w, τ = σ.set n (.scalar w) ∧ w.value = bs.foldl (I.binary op) a)
    ?_ ⟨v, rfl, hv⟩
  · rw [mapM_range_getElem?] at hrun
    obtain ⟨τ, hτ, _, w, rfl, hw⟩ := hrun
    exact ⟨w, by simpa using hτ, hw⟩
  · rintro bs τ hbs ⟨w, rfl, hw⟩
    rw [List.getElem?_eq_getElem hbs]
    have hone : (1 : Int) + bs.length = (bs.length + 1 : Nat) := by omega
    rw [hone]
    set τ := (σ.set n (.scalar w)).set (n + 1) (.scalar (I.intWord (bs.length + 1 : Nat))) with hτ
    have hacc : (Formula.var n).Yields k I τ w.value :=
      Formula.yields_var ⟨w, by simp [hτ], rfl⟩
    have hindex : (Formula.var (n + 1)).Indexes k I τ (bs.length + 1 : Nat) :=
      Formula.indexes_var (by simp [hτ])
    have hxτ : τ.Holds k x (.vector (a :: as)) := by
      refine hx.congr ?_
      rw [hτ, Store.set_other _ _ (Nat.lt_succ_of_lt hxn).ne, Store.set_other _ _ hxn.ne]
    have helem := Formula.yields_element (a := as[bs.length]) hindex hxτ (by simp [hbs])
    obtain ⟨w', hexec, hw'⟩ := (hacc.binary helem op).assign_var (v := n)
    refine ⟨_, ?_, w', rfl, ?_⟩
    · rw [Code.execs_singleton, hexec]
      exact congrArg Except.ok (leave_round hfresh)
    · rw [hw', hw, List.foldl_concat]

/-- The loop index, if there is one, stands at the given element. -/
def Points (I : Interpretation S) (σ : Store S) : Option VarId → Option Nat → Prop
  | none, none => True
  | some e, some i => σ e = some (.scalar (I.intWord i))
  | _, _ => False

/-- The result of an earlier step is found in a variable before `n`. -/
structure Operand.Done (k : Kernel) (σ : Store S) (n : Nat) (x : Operand) (d : Datum S) : Prop where
  lt : x.var < n
  fits : d.Fits x.extent
  holds : σ.Holds k x.var d

theorem Operand.Done.yields {n : Nat} {x : Operand} {d : Datum S} (hx : x.Done k σ n d)
    {τ : Store S} (hτ : τ x.var = σ x.var) {e : Option VarId} {i : Option Nat}
    (he : Points I τ e i) {a : S} (ha : d.get? i = some a) :
    (Formula.operand e x).Yields k I τ a := by
  obtain ⟨v, extent⟩ := x
  have hholds := hx.holds.congr hτ
  have hfits := hx.fits
  cases extent with
  | scalar s =>
    obtain ⟨b, rfl⟩ := hfits.eq_scalar
    obtain rfl := Option.some.inj ha
    cases e <;> exact Formula.yields_var hholds
  | vector s m =>
    obtain ⟨bs, rfl, _⟩ := hfits.eq_vector
    match e, i, he with
    | none, none, _ => cases ha
    | some e, some i, he => exact Formula.yields_element (Formula.indexes_var he) hholds ha

/-- Where a step of a recipe runs: at the position `p`, after a layer with the values `V`. The
variables from `n` on are not in use. -/
structure Site.Ready (k : Kernel) (I : Interpretation S) (site : Site) (p : Nat) (V : List S)
    (n : Nat) (σ : Store S) : Prop where
  index_lt : site.index < n
  index : σ site.index = some (.scalar (I.intWord p))
  input_lt : site.input < n
  input : σ.Holds k site.input (.vector V)
  fresh : ∀ v, n ≤ v → σ v = none

/-- What a step leaves behind: its value in the variable `n`, all before as it was, and nothing
beyond its own variables. -/
structure Line.Ran (k : Kernel) (σ : Store S) (n : Nat) (l : Line) (d : Datum S) (τ : Store S) :
    Prop where
  agrees : ∀ v, v < n → τ v = σ v
  fresh : ∀ v, n + l.locals.length ≤ v → τ v = none
  fits : d.Fits l.extent
  holds : τ.Holds k n d

theorem Line.locals_pos (l : Line) : 0 < l.locals.length := by
  obtain ⟨step, extent⟩ := l
  cases step <;> cases extent <;> simp [Line.locals]

theorem Line.Ran.of_set {n : Nat} {l : Line} {d : Datum S} {τ : Store S}
    (hfresh : ∀ v, n ≤ v → σ v = none) (hτ : ∀ v, v ≠ n → τ v = σ v) (hfits : d.Fits l.extent)
    (hholds : τ.Holds k n d) : l.Ran k σ n d τ := by
  have hpos := l.locals_pos
  refine ⟨fun v hv => hτ v (Nat.ne_of_lt hv), fun v hv => ?_, hfits, hholds⟩
  have hv' : n < v := Nat.lt_of_lt_of_le (Nat.lt_add_of_pos_right hpos) hv
  rw [hτ v (Nat.ne_of_gt hv'), hfresh v (Nat.le_of_lt hv')]

/-- Scalars are computed at once and vectors in a loop, from operands that do not change. -/
theorem exec_elementwise {n : Nat} {extent : Extent} {φ : Option VarId → Formula} {d : Datum S}
    (hfresh : σ (n + 1) = none) (hfits : d.Fits extent)
    (hlen : ∀ s m, extent = .vector s m → k.length n = m)
    (hφ : ∀ (τ : Store S) (e : Option VarId) (i : Option Nat) (a : S), (∀ v, v < n → τ v = σ v) →
      Points I τ e i → d.get? i = some a → (φ e).Yields k I τ a) :
    ∃ τ, Code.execs k I (Code.elementwise n extent φ) σ = .ok τ ∧ τ.Holds k n d ∧
      ∀ v, v ≠ n → τ v = σ v := by
  cases extent with
  | scalar s =>
    obtain ⟨a, rfl⟩ := hfits.eq_scalar
    obtain ⟨w, hexec, hw⟩ := (hφ σ none none a (fun _ _ => rfl) trivial rfl).assign_var (v := n)
    refine ⟨σ.set n (.scalar w), ?_, ⟨w, by simp, hw⟩, fun v hv => by simp [hv]⟩
    rw [Code.elementwise, Code.execs_singleton, hexec]
  | vector s m =>
    obtain ⟨as, rfl, rfl⟩ := hfits.eq_vector
    obtain ⟨slots, hexec, hholds⟩ := exec_fill (k := k) (I := I) (φ := φ (some (n + 1))) hfresh
      (hlen s _ rfl) (fun i a slots ha => by
        refine hφ _ (some (n + 1)) (some i) a (fun v hv => ?_) (by simp [Points]) ha
        have hne : v ≠ n ∧ v ≠ n + 1 := ⟨Nat.ne_of_lt hv, Nat.ne_of_lt (Nat.lt_succ_of_lt hv)⟩
        simp [hne.1, hne.2])
    exact ⟨_, hexec, hholds, fun v hv => by simp [hv]⟩

/-- Vectors whose length fits into a word. -/
def Literal.Bounded : Literal → Prop
  | .vec xs => xs.length < UInt32.size
  | _ => True

instance : (c : Literal) → Decidable c.Bounded
  | .vec xs => inferInstanceAs (Decidable (xs.length < UInt32.size))
  | .int _ | .bool _ | .real _ => isTrue trivial

theorem Literal.Bounded.fits {c : Literal} (hc : c.Bounded) {extent : Extent}
    (h : c.ty = extent.ty) : (I.literal c).Fits extent := by
  cases c with
  | int n => rw [Extent.ty_injective (y := .scalar .int) h.symm]; trivial
  | bool b => rw [Extent.ty_injective (y := .scalar .bool) h.symm]; trivial
  | real x => rw [Extent.ty_injective (y := .scalar .real) h.symm]; trivial
  | vec xs =>
    rw [Extent.ty_injective (y := .vector .real (xs.length % UInt32.size)) h.symm]
    simp only [Interpretation.literal, Datum.Fits, List.length_map]
    exact (Nat.mod_eq_of_lt hc).symm

theorem exec_literal {n t v : Nat} {p : Nat} {c : Literal} {extent : Extent}
    (hv : σ v = some (.scalar (I.intWord p))) (ht : k.entry? t p = some c)
    (hfits : (I.literal c).Fits extent) (hlen : ∀ s m, extent = .vector s m → k.length n = m) :
    ∃ τ, Code.execs k I [.assign (.var n) (.entry t (.var v))] σ = .ok τ ∧
      τ.Holds k n (I.literal c) ∧ ∀ v, v ≠ n → τ v = σ v := by
  rw [Code.execs_singleton, Code.exec, Formula.eval_entry (Formula.indexes_var hv) ht]
  cases c with
  | int m => exact ⟨_, rfl, ⟨_, Store.set_same _ _ _, rfl⟩, fun w hw => by simp [hw]⟩
  | bool b => exact ⟨_, rfl, ⟨_, Store.set_same _ _ _, rfl⟩, fun w hw => by simp [hw]⟩
  | real x => exact ⟨_, rfl, ⟨_, Store.set_same _ _ _, rfl⟩, fun w hw => by simp [hw]⟩
  | vec xs =>
    refine ⟨_, rfl, ⟨?_, _, Store.set_same _ _ _, ?_⟩, fun w hw => by simp [hw]⟩
    · cases extent with
      | scalar s => cases hfits
      | vector s m =>
        rw [hlen s m rfl]
        exact hfits.symm
    · intro i a ha
      obtain ⟨x, hx, rfl⟩ := List.getElem?_map ▸ ha |> Option.map_eq_some_iff.1
      exact ⟨{ value := I.real x }, by simp [hx], rfl⟩

/-- How a member at position `p` reads its inputs from the values `V` of the layer before. -/
structure Site.Reads (k : Kernel) (I : Interpretation S) (site : Site) (p : Nat) (V : List S)
    (ty : Ty) (input : Option (Datum S)) : Prop where
  scalar : ∀ s, ty = .scalar s → input = V[p]?.map .scalar
  vector : ∀ s m, ty = .vector s (some m) → ∃ positions : List Nat, positions.length = m ∧
    input = (positions.mapM (V[·]?)).map .vector ∧
    ∀ (σ : Store S) (i q : Nat), σ site.index = some (.scalar (I.intWord p)) →
      positions[i]? = some q → (Formula.sourceIndex site i).Indexes k I σ q

/-- An element of the layer before is read with the help of the variable `i`. -/
theorem exec_read {site : Site} {V : List S} {i q : Nat} {φ ψ : Formula}
    (hinput : σ.Holds k site.input (.vector V)) (hi : site.input ≠ i) (hφ : φ.Indexes k I σ q) :
    match V[q]? with
    | none => Code.execs k I (Code.readInput site i φ ψ) σ = .error (.outOfRange site.input q)
    | some a => ∃ w, w.integer = some (q : Int) ∧
      Code.execs k I (Code.readInput site i φ ψ) σ =
        (Code.assign ψ (.element site.input (.var i))).exec k I (σ.set i (.scalar w)) ∧
      (Formula.element site.input (.var i)).Yields k I (σ.set i (.scalar w)) a := by
  obtain ⟨w, hexec, hw⟩ := hφ.assign_var (v := i)
  have hinput' : (σ.set i (.scalar w)).Holds k site.input (.vector V) :=
    hinput.congr (Store.set_other _ _ hi)
  have hindex : (Formula.var i).Indexes k I (σ.set i (.scalar w)) q :=
    ⟨w, by simp [Formula.eval], hw⟩
  have hrun : Code.execs k I (Code.readInput site i φ ψ) σ =
      (Code.assign ψ (.element site.input (.var i))).exec k I (σ.set i (.scalar w)) := by
    rw [Code.readInput, Code.execs_cons hexec, Code.execs_singleton]
  split
  · rename_i hV
    rw [hrun, Code.exec, Formula.element_outOfRange hindex hinput' hV]
    rfl
  · rename_i a hV
    exact ⟨w, hw, hrun, Formula.yields_element hindex hinput' hV⟩

theorem exec_input_scalar {site : Site} {p n : Nat} {V : List S} {s : Scalar}
    (h : site.Ready k I p V n σ) :
    Runs (Code.execs k I (Code.input site n (.scalar s)) σ) (V[p]?.map .scalar)
      (Line.Ran k σ n ⟨.input, .scalar s⟩) := by
  have hne : site.input ≠ n + 1 := Nat.ne_of_lt (Nat.lt_succ_of_lt h.input_lt)
  have hread := exec_read (ψ := .var n) h.input hne (Formula.indexes_var h.index)
  cases hV : V[p]? with
  | none =>
    rw [hV] at hread
    exact ⟨_, _, hread⟩
  | some a =>
    rw [hV] at hread
    obtain ⟨w, _, hrun, hyields⟩ := hread
    obtain ⟨w', hexec, hw'⟩ := hyields.assign_var (v := n)
    refine Runs.ok (hrun.trans hexec) ⟨fun v hv => ?_, fun v hv => ?_, trivial, w', by simp, hw'⟩
    · rw [Store.set_other _ _ (Nat.ne_of_lt hv),
        Store.set_other _ _ (Nat.ne_of_lt (Nat.lt_succ_of_lt hv))]
    · have hv' : n + 2 ≤ v := hv
      rw [Store.set_other _ _ (Nat.ne_of_gt (Nat.lt_of_lt_of_le (by simp) hv')),
        Store.set_other _ _ (Nat.ne_of_gt (Nat.lt_of_lt_of_le (by simp) hv')),
        h.fresh v (Nat.le_trans (by simp) hv')]

/-- A vector of inputs of which the first are read. -/
structure PartlyRead (σ : Store S) (n : Nat) (as : List S) (τ : Store S) : Prop where
  agrees : ∀ v, v < n → τ v = σ v
  slots : ∃ slots, τ n = some (.vector slots) ∧ Store.Filled slots as
  fresh : ∀ v, n + 1 + as.length ≤ v → τ v = none

theorem exec_reads {site : Site} {p n : Nat} {V : List S} {positions : List Nat}
    (h : site.Ready k I p V n σ) (hlen : k.length n = positions.length)
    (hindex : ∀ (σ : Store S) (i q : Nat), σ site.index = some (.scalar (I.intWord p)) →
      positions[i]? = some q → (Formula.sourceIndex site i).Indexes k I σ q)
    (count : Nat) {as : List S} {τ : Store S} (hcount : as.length + count = positions.length)
    (hτ : PartlyRead σ n as τ) :
    Runs (Code.execs k I ((List.range' as.length count).flatMap fun i =>
        Code.readInput site (n + 1 + i) (.sourceIndex site i) (.element n (.int i))) τ)
      ((positions.drop as.length).mapM (V[·]?)) fun bs τ' => PartlyRead σ n (as ++ bs) τ' := by
  induction count generalizing as τ with
  | zero =>
    rw [List.drop_of_length_le (by omega)]
    exact Runs.ok rfl (by simpa using hτ)
  | succ count ih =>
    have hlt : as.length < positions.length := by omega
    set q := positions[as.length] with hq
    rw [List.range'_succ, List.flatMap_cons, Code.execs_append, List.drop_eq_getElem_cons hlt,
      List.mapM_cons]
    have hne : site.input ≠ n + 1 + as.length := by
      have := h.input_lt
      exact Nat.ne_of_lt (Nat.lt_of_lt_of_le this (by omega))
    have hread := exec_read (i := n + 1 + as.length) (ψ := .element n (.int as.length))
      (h.input.congr (hτ.agrees _ h.input_lt)) hne
      (hindex τ as.length q (by rw [hτ.agrees _ h.index_lt, h.index])
        (List.getElem?_eq_getElem hlt))
    cases hV : V[q]? with
    | none =>
      rw [hV] at hread
      refine ⟨site.input, q, ?_⟩
      rw [hread]
      rfl
    | some a =>
      rw [hV] at hread
      obtain ⟨w, _, hrun, hyields⟩ := hread
      obtain ⟨slots, hslots, hfilled⟩ := hτ.slots
      set τ₁ := τ.set (n + 1 + as.length) (.scalar w) with hτ₁
      have hslots₁ : τ₁ n = some (.vector slots) := by
        rw [hτ₁, Store.set_other _ _ (Nat.ne_of_lt (by omega)), hslots]
      obtain ⟨w', hexec, rfl⟩ := hyields.assign_element
        (Formula.indexes_int (as.length : Nat)) hslots₁ (by omega)
      rw [hrun, hexec]
      set τ₂ := τ₁.set n (.vector (Function.update slots as.length (some w'))) with hτ₂
      have hnext : PartlyRead σ n (as ++ [w'.value]) τ₂ := by
        refine ⟨fun v hv => ?_, ⟨_, Store.set_same _ _ _, hfilled.concat w'⟩, fun v hv => ?_⟩
        · rw [hτ₂, Store.set_other _ _ (Nat.ne_of_lt hv), hτ₁,
            Store.set_other _ _ (Nat.ne_of_lt (Nat.lt_of_lt_of_le hv (by omega))), hτ.agrees v hv]
        · simp only [List.length_append, List.length_cons, List.length_nil] at hv
          have hv' : n + 1 + as.length < v := Nat.lt_of_lt_of_le (by omega) hv
          rw [hτ₂, Store.set_other _ _ (Nat.ne_of_gt (Nat.lt_of_le_of_lt (by omega) hv')), hτ₁,
            Store.set_other _ _ (Nat.ne_of_gt hv'), hτ.fresh v (Nat.le_of_lt hv')]
      have hrest := ih (by simp; omega) hnext
      simp only [List.length_append, List.length_cons, List.length_nil, Nat.zero_add] at hrest
      exact hrest.imp_pure fun bs _ h => by simpa using h

theorem exec_input_vector {site : Site} {p n m : Nat} {V : List S} {s : Scalar}
    {positions : List Nat} (h : site.Ready k I p V n σ) (hm : positions.length = m)
    (hlen : k.length n = m)
    (hindex : ∀ (σ : Store S) (i q : Nat), σ site.index = some (.scalar (I.intWord p)) →
      positions[i]? = some q → (Formula.sourceIndex site i).Indexes k I σ q) :
    Runs (Code.execs k I (Code.input site n (.vector s m)) σ)
      ((positions.mapM (V[·]?)).map .vector) (Line.Ran k σ n ⟨.input, .vector s m⟩) := by
  subst hm
  rw [Code.input, Code.execs_cons (by rw [Code.exec])]
  have hstart : PartlyRead σ n [] (σ.set n (.vector fun _ => none)) := by
    refine ⟨fun v hv => by rw [Store.set_other _ _ (Nat.ne_of_lt hv)],
      ⟨_, Store.set_same _ _ _, Store.filled_nil _⟩, fun v hv => ?_⟩
    have hv' : n < v := hv
    rw [Store.set_other _ _ (Nat.ne_of_gt hv'), h.fresh v (Nat.le_of_lt hv')]
  have hrun := exec_reads h hlen hindex positions.length (by simp) hstart
  rw [List.length_nil, List.drop_zero, ← List.range_eq_range'] at hrun
  cases hmap : positions.mapM (V[·]?) with
  | none =>
    rw [hmap] at hrun
    exact hrun
  | some as =>
    rw [hmap] at hrun
    obtain ⟨τ, hexec, hτ⟩ := hrun
    have has : as.length = positions.length := (mapM_eq_some_iff.1 hmap).length_eq.symm
    obtain ⟨slots, hslots, hfilled⟩ := hτ.slots
    refine Runs.ok hexec ⟨hτ.agrees, fun v hv => hτ.fresh v ?_, has, ?_⟩
    · simpa [Line.locals, has, Nat.add_comm, Nat.add_left_comm] using hv
    · exact ⟨hlen.trans has.symm, slots, hslots, hfilled⟩

theorem Datum.Fits.map {d : Datum S} {x : Extent} (h : d.Fits x) (f : S → S) :
    (d.map f).Fits x := by
  cases x with
  | scalar s =>
    obtain ⟨a, rfl⟩ := h.eq_scalar
    trivial
  | vector s n =>
    obtain ⟨as, rfl, has⟩ := h.eq_vector
    simpa [Datum.map, Datum.Fits] using has

theorem Datum.Fits.zip {d e : Datum S} {x y z : Extent} (hd : d.Fits x) (he : e.Fits y)
    (hjoin : x.ty.join y.ty = some z.ty) (f : S → S → S) : (d.zip f e).Fits z := by
  match d, x, hd, e, y, he with
  | .scalar a, .scalar s, _, .scalar b, .scalar t, _ =>
    simp [Ty.join, Extent.ty, Ty.elem, Ty.isScalar, Option.bind_eq_some_iff] at hjoin
    obtain ⟨u, _, hu⟩ := hjoin
    rw [Extent.ty_injective (x := z) (y := .scalar u) hu.symm]
    trivial
  | .scalar a, .scalar s, _, .vector bs, .vector t n, he =>
    simp [Ty.join, Extent.ty, Ty.elem, Ty.isScalar, Ty.len, Ty.shorter,
      Option.bind_eq_some_iff] at hjoin
    obtain ⟨u, _, hu⟩ := hjoin
    rw [Extent.ty_injective (x := z) (y := .vector u n) hu.symm]
    simpa [Datum.zip, Datum.Fits] using he
  | .vector as, .vector s m, hd, .scalar b, .scalar t, _ =>
    simp [Ty.join, Extent.ty, Ty.elem, Ty.isScalar, Ty.len, Ty.shorter,
      Option.bind_eq_some_iff] at hjoin
    obtain ⟨u, _, hu⟩ := hjoin
    rw [Extent.ty_injective (x := z) (y := .vector u m) hu.symm]
    simpa [Datum.zip, Datum.Fits] using hd
  | .vector as, .vector s m, hd, .vector bs, .vector t n, he =>
    simp [Ty.join, Extent.ty, Ty.elem, Ty.isScalar, Ty.len, Ty.shorter,
      Option.bind_eq_some_iff] at hjoin
    obtain ⟨u, _, hu⟩ := hjoin
    rw [Extent.ty_injective (x := z) (y := .vector u (min m n)) hu.symm]
    have hd' : as.length = m := hd
    have he' : bs.length = n := he
    simp [Datum.zip, Datum.Fits, hd', he']

/-- The result of an earlier step by its number. -/
theorem done_getElem? {n : Nat} {done : List Operand} {ds : List (Datum S)}
    (h : List.Forall₂ (Operand.Done k σ n) done ds) {x : Nat} {extent : Extent}
    (hx : (done.map (·.extent))[x]? = some extent) :
    ∃ d, ds[x]? = some d ∧ (done.getD x default).extent = extent ∧
      (done.getD x default).Done k σ n d := by
  rw [List.getElem?_map] at hx
  obtain ⟨o, ho, rfl⟩ := Option.map_eq_some_iff.1 hx
  obtain ⟨d, hd, hdone⟩ := forall₂_getElem? h ho
  have hget : done.getD x default = o := by
    rw [List.getD_eq_getElem?_getD, ho, Option.getD_some]
  exact ⟨d, hd, by rw [hget], by rwa [hget]⟩

theorem exec_unary (op : Unary) {n : Nat} {extent : Extent} {x : Operand} {d : Datum S}
    (hfresh : σ (n + 1) = none) (hlen : ∀ s m, extent = .vector s m → k.length n = m)
    (hx : x.Done k σ n d) (hfits : (d.map (I.unary op)).Fits extent) :
    ∃ τ, Code.execs k I (Code.elementwise n extent fun e => .unary op (.operand e x)) σ = .ok τ ∧
      τ.Holds k n (d.map (I.unary op)) ∧ ∀ v, v ≠ n → τ v = σ v := by
  refine exec_elementwise hfresh hfits hlen ?_
  intro τ e i a hτ he ha
  rw [Datum.get?_map] at ha
  obtain ⟨b, hb, rfl⟩ := Option.map_eq_some_iff.1 ha
  exact (hx.yields (hτ _ hx.lt) he hb).unary op

theorem exec_binary (op : Binary) {n : Nat} {extent : Extent} {x y : Operand} {d d' : Datum S}
    (hfresh : σ (n + 1) = none) (hlen : ∀ s m, extent = .vector s m → k.length n = m)
    (hx : x.Done k σ n d) (hy : y.Done k σ n d') (hfits : (d.zip (I.binary op) d').Fits extent) :
    ∃ τ, Code.execs k I (Code.elementwise n extent fun e =>
        .binary op (.operand e x) (.operand e y)) σ = .ok τ ∧
      τ.Holds k n (d.zip (I.binary op) d') ∧ ∀ v, v ≠ n → τ v = σ v := by
  refine exec_elementwise hfresh hfits hlen ?_
  intro τ e i a hτ he ha
  rw [Datum.get?_zip] at ha
  obtain ⟨b, hb, ha⟩ := Option.bind_eq_some_iff.1 ha
  obtain ⟨c, hc, rfl⟩ := Option.map_eq_some_iff.1 ha
  exact (hx.yields (hτ _ hx.lt) he hb).binary (hy.yields (hτ _ hy.lt) he hc) op

theorem exec_reduce (kind : Reduction) {n m : Nat} {s : Scalar} {x : Operand} {d : Datum S}
    (hfresh : σ (n + 1) = none) (hx : x.Done k σ n d) (hextent : x.extent = .vector s (m + 1)) :
    ∃ w : Word S, d.fold (I.binary kind.operator) = some (.scalar w.value) ∧
      Code.execs k I (Code.reduce n kind x) σ = .ok (σ.set n (.scalar w)) := by
  have hfits := hx.fits
  rw [hextent] at hfits
  obtain ⟨a, as, rfl, rfl⟩ := hfits.eq_cons
  obtain ⟨w, hexec, hw⟩ := exec_fold (I := I) kind.operator hfresh hx.lt hx.holds
  refine ⟨w, by rw [Datum.fold, hw], ?_⟩
  rw [← hexec, List.length_cons]
  simp only [Code.reduce, Formula.operand, hextent, Extent.len]

theorem exec_activate (name : String) {n : Nat} {s : Scalar} {x : Operand} {d : Datum S}
    (hx : x.Done k σ n d) (hextent : x.extent = .scalar s) :
    ∃ w : Word S, d.scalar?.map (I.activate name) = some w.value ∧
      Code.execs k I [.assign (.var n) (.activate name (.var x.var))] σ =
        .ok (σ.set n (.scalar w)) := by
  have hfits := hx.fits
  rw [hextent] at hfits
  obtain ⟨a, rfl⟩ := hfits.eq_scalar
  have hyields := (Formula.yields_var (I := I) hx.holds).activate name
  obtain ⟨w, hexec, hw⟩ := hyields.assign_var (v := n)
  refine ⟨w, by rw [Datum.scalar?, Option.map_some, hw], ?_⟩
  rw [Code.execs_singleton, hexec]

/-- A step that gives a scalar sets its variable. -/
theorem Line.Ran.scalar {n : Nat} {step : Step} {s : Scalar} (w : Word S)
    (hfresh : ∀ v, n ≤ v → σ v = none) :
    Line.Ran k σ n ⟨step, .scalar s⟩ (.scalar w.value) (σ.set n (.scalar w)) :=
  .of_set hfresh (fun v hv => by simp [hv]) trivial ⟨w, by simp, rfl⟩

theorem exec_line {site : Site} {p n : Nat} {V : List S} {done : List Operand}
    {ds : List (Datum S)} {l : Line} {literals : List Literal} {ty : Ty} {input : Option (Datum S)}
    (h : site.Ready k I p V n σ) (hdone : List.Forall₂ (Operand.Done k σ n) done ds)
    (htyped : l.Typed (literals.map Literal.ty) ty (done.map (·.extent)))
    (hvar : k.vars[n]?.map Variable.ty = some l.extent.ty)
    (hliterals : ∀ (rank : Nat) (c : Literal), literals[rank]? = some c →
      c.Bounded ∧ k.entry? (site.firstTable + rank) p = some c)
    (hreads : l.step = .input → site.Reads k I p V ty input) :
    Runs (Code.execs k I (Code.line site done n l) σ) (l.step.value I literals input ds)
      (l.Ran k σ n) := by
  have hfresh : σ (n + 1) = none := h.fresh _ (Nat.le_succ n)
  have hlen : ∀ s m, l.extent = .vector s m → k.length n = m := by
    intro s m hm
    rw [hm] at hvar
    exact Kernel.length_eq hvar
  obtain ⟨step, extent⟩ := l
  cases step with
  | literal rank =>
    change (literals.map Literal.ty)[rank]? = some extent.ty at htyped
    rw [List.getElem?_map] at htyped
    obtain ⟨c, hc, hty⟩ := Option.map_eq_some_iff.1 htyped
    obtain ⟨hbound, hentry⟩ := hliterals rank c hc
    have hfits : (I.literal c).Fits extent := hbound.fits hty
    obtain ⟨τ, hexec, hholds, hτ⟩ := exec_literal h.index hentry hfits hlen
    simp only [Step.value, hc, Option.map_some]
    exact Runs.ok hexec (.of_set h.fresh hτ hfits hholds)
  | unary op x =>
    obtain ⟨d, hd, hx, hoperand⟩ := done_getElem? hdone htyped
    have hfits : (d.map (I.unary op)).Fits extent := (hx ▸ hoperand.fits).map _
    obtain ⟨τ, hexec, hholds, hτ⟩ := exec_unary op hfresh hlen hoperand hfits
    simp only [Step.value, hd, Option.map_some]
    exact Runs.ok hexec (.of_set h.fresh hτ hfits hholds)
  | binary op x y =>
    obtain ⟨a, b, ha, hb, hjoin⟩ := htyped
    obtain ⟨d, hd, rfl, hx⟩ := done_getElem? hdone ha
    obtain ⟨e, he, rfl, hy⟩ := done_getElem? hdone hb
    have hfits : (d.zip (I.binary op) e).Fits extent := hx.fits.zip hy.fits hjoin _
    obtain ⟨τ, hexec, hholds, hτ⟩ := exec_binary op hfresh hlen hx hy hfits
    simp only [Step.value, hd, he, Option.bind_eq_bind, Option.bind_some]
    exact Runs.ok hexec (.of_set h.fresh hτ hfits hholds)
  | input =>
    change Runs _ input _
    cases extent with
    | scalar s =>
      rw [(hreads rfl).scalar s htyped]
      exact exec_input_scalar h
    | vector s m =>
      obtain ⟨positions, hm, hinput, hindex⟩ := (hreads rfl).vector s m htyped
      rw [hinput]
      exact exec_input_vector h hm (hlen s m rfl) hindex
  | reduce kind x =>
    obtain ⟨s, m, hx, hextent⟩ := htyped
    obtain rfl : extent = .scalar s := hextent
    obtain ⟨d, hd, hxe, hoperand⟩ := done_getElem? hdone hx
    obtain ⟨w, hfold, hexec⟩ := exec_reduce (I := I) kind hfresh hoperand hxe
    simp only [Step.value, hd, Option.bind_some, hfold]
    exact Runs.ok hexec (.scalar w h.fresh)
  | activate name x =>
    obtain ⟨s, hx, hextent⟩ := htyped
    obtain rfl : extent = .scalar s := hextent
    obtain ⟨d, hd, hxe, hoperand⟩ := done_getElem? hdone hx
    obtain ⟨w, hactivate, hexec⟩ := exec_activate (I := I) name hoperand hxe
    obtain ⟨a, ha, hw⟩ := Option.map_eq_some_iff.1 hactivate
    simp only [Step.value, hd, Option.bind_eq_bind, Option.bind_some, ha, hw]
    exact Runs.ok hexec (.scalar w h.fresh)

theorem Operand.Done.step {n m : Nat} {x : Operand} {d : Datum S} {τ : Store S}
    (h : x.Done k σ n d) (hτ : ∀ v, v < n → τ v = σ v) (hm : n ≤ m) : x.Done k τ m d :=
  ⟨Nat.lt_of_lt_of_le h.lt hm, h.fits, h.holds.congr (hτ _ h.lt)⟩

theorem Site.Ready.step {site : Site} {p n : Nat} {V : List S} {l : Line} {d : Datum S}
    {τ : Store S} (h : site.Ready k I p V n σ) (hτ : l.Ran k σ n d τ) :
    site.Ready k I p V (n + l.locals.length) τ :=
  ⟨Nat.lt_of_lt_of_le h.index_lt (Nat.le_add_right _ _), by rw [hτ.agrees _ h.index_lt, h.index],
    Nat.lt_of_lt_of_le h.input_lt (Nat.le_add_right _ _),
    h.input.congr (hτ.agrees _ h.input_lt), hτ.fresh⟩

/-- A recipe in which the inputs of the neuron occur. -/
def Recipe.ReadsInput (r : Recipe) : Prop := ∃ l ∈ r, l.step = .input

/-- The code of a recipe leaves the values of all steps in their variables. -/
theorem exec_recipe {site : Site} {p : Nat} {V : List S} {literals : List Literal} {ty : Ty}
    {input : Option (Datum S)}
    (hliterals : ∀ (rank : Nat) (c : Literal), literals[rank]? = some c →
      c.Bounded ∧ k.entry? (site.firstTable + rank) p = some c)
    (rest : Recipe) {n : Nat} {done : List Operand} {ds : List (Datum S)} {σ : Store S}
    (hreads : rest.ReadsInput → site.Reads k I p V ty input) (h : site.Ready k I p V n σ)
    (hdone : List.Forall₂ (Operand.Done k σ n) done ds)
    (htyped : rest.Typed (literals.map Literal.ty) ty (done.map (·.extent)))
    (hvars : ∀ (i : Nat) (t : Ty), rest.locals[i]? = some t →
      k.vars[n + i]?.map Variable.ty = some t) :
    Runs (Code.execs k I (rest.code site done n) σ) (rest.values I literals input ds)
      fun all τ => (∀ v, v < n → τ v = σ v) ∧
        List.Forall₂ (Operand.Done k τ (n + rest.locals.length)) (done ++ rest.operands n) all := by
  induction rest generalizing n done ds σ with
  | nil => exact Runs.ok rfl ⟨fun _ _ => rfl, by simpa [Recipe.operands, Recipe.locals] using hdone⟩
  | cons l rest ih =>
    obtain ⟨hl, hrest⟩ := htyped
    have hlocals : Recipe.locals (l :: rest) = l.locals ++ Recipe.locals rest := by
      simp [Recipe.locals]
    rw [hlocals] at hvars ⊢
    have hpos := l.locals_pos
    have hvar : k.vars[n]?.map Variable.ty = some l.extent.ty :=
      hvars 0 _ (by rw [List.getElem?_append_left hpos, l.locals_zero])
    rw [Recipe.code, Code.execs_append, Recipe.values]
    refine (exec_line h hdone hl hvar hliterals fun hin => hreads ⟨l, by simp, hin⟩).bind
      fun d τ hτ => ?_
    have hdone' : List.Forall₂ (Operand.Done k τ (n + l.locals.length))
        (done ++ [⟨n, l.extent⟩]) (ds ++ [d]) := by
      refine List.rel_append (hdone.imp fun x e hx => hx.step hτ.agrees (Nat.le_add_right _ _))
        (.cons ⟨Nat.lt_add_of_pos_right hpos, hτ.fits, hτ.holds⟩ .nil)
    have hreads' : Recipe.ReadsInput rest → site.Reads k I p V ty input := by
      rintro ⟨l', hl', hin⟩
      exact hreads ⟨l', by simp [hl'], hin⟩
    refine (ih hreads' (h.step hτ) hdone' (by simpa using hrest) fun i t hi => ?_).imp
      fun all τ' hτ' => ⟨fun v hv => ?_, ?_⟩
    · rw [Nat.add_assoc]
      exact hvars _ t (by rw [List.getElem?_append_right (by omega)]; simpa using hi)
    · rw [hτ'.1 v (Nat.lt_of_lt_of_le hv (Nat.le_add_right _ _)), hτ.agrees v hv]
    · have h' := hτ'.2
      rw [Nat.add_assoc, ← List.length_append] at h'
      simpa [Recipe.operands] using h'

/-- The last step of a recipe gives one number. -/
def Recipe.GivesScalar (r : Recipe) : Prop := ∃ s, (r.map (·.extent)).getLast? = some (.scalar s)

/-- The number that a recipe gives. -/
def Recipe.result (r : Recipe) (I : Interpretation S) (literals : List Literal)
    (input : Option (Datum S)) : Option S :=
  ((r.values I literals input []).bind List.getLast?).bind Datum.scalar?

/-- What the loop of an ensemble needs to compute the member at position `p`. -/
structure Site.Serves (k : Kernel) (I : Interpretation S) (site : Site) (r : Recipe) (p : Nat)
    (V : List S) (literals : List Literal) (ty : Ty) (input : Option (Datum S)) : Prop where
  entries : ∀ (rank : Nat) (c : Literal), literals[rank]? = some c →
    c.Bounded ∧ k.entry? (site.firstTable + rank) p = some c
  reads : r.ReadsInput → site.Reads k I p V ty input
  typed : r.Typed (literals.map Literal.ty) ty []

/-- One round of the loop stores the result of one member. -/
theorem exec_member {site : Site} {r : Recipe} {n output p : Nat} {V : List S}
    {literals : List Literal} {ty : Ty} {input : Option (Datum S)} {slots : Nat → Option (Word S)}
    (hserves : site.Serves k I r p V literals ty input) (hr : r.GivesScalar)
    (h : site.Ready k I p V (n + 1) σ) (hindex : site.index = n)
    (hvars : ∀ (i : Nat) (t : Ty), r.locals[i]? = some t →
      k.vars[n + 1 + i]?.map Variable.ty = some t)
    (houtput : output < n + 1) (hslots : σ output = some (.vector slots))
    (hp : p < k.length output) :
    Runs (Code.execs k I (r.code site [] (n + 1) ++ [.assign (.element output (.var n))
        (.var ((r.operands (n + 1)).getLastD default).var)]) σ) (r.result I literals input)
      fun a τ => ∃ w, w.value = a ∧
        τ output = some (.vector (Function.update slots p (some w))) ∧
        ∀ v, v < n + 1 → v ≠ output → τ v = σ v := by
  rw [Code.execs_append, Recipe.result, Option.bind_assoc]
  refine (exec_recipe hserves.entries r hserves.reads h .nil hserves.typed hvars).bind
    fun all τ hτ => ?_
  obtain ⟨s, hs⟩ := hr
  rw [← Recipe.map_extent_operands r (n + 1), List.getLast?_map] at hs
  obtain ⟨x, hx, hxs⟩ := Option.map_eq_some_iff.1 hs
  obtain ⟨d, hd, hdone⟩ := forall₂_getLast? hτ.2 (by simpa using hx)
  have hfits := hdone.fits
  rw [hxs] at hfits
  obtain ⟨a, rfl⟩ := hfits.eq_scalar
  rw [hd, Option.bind_some, Datum.scalar?, Code.execs_singleton]
  have hlast : (r.operands (n + 1)).getLastD default = x := by
    rw [List.getLastD_eq_getLast?, hx, Option.getD_some]
  have hτindex : τ n = some (.scalar (I.intWord p)) := by
    rw [hτ.1 n (Nat.lt_succ_self n), ← hindex, h.index]
  have hτslots : τ output = some (.vector slots) := by rw [hτ.1 output houtput, hslots]
  have hyields : (Formula.var ((r.operands (n + 1)).getLastD default).var).Yields k I τ a := by
    rw [hlast]
    exact Formula.yields_var hdone.holds
  obtain ⟨w, hexec, hw⟩ := hyields.assign_element (Formula.indexes_var hτindex) hτslots hp
  refine Runs.ok hexec ⟨w, hw, by simp, fun v hv hne => ?_⟩
  rw [Store.set_other _ _ hne, hτ.1 v hv]

/-- The loop of an ensemble stores the results of its members one after the other. -/
theorem exec_ensemble {e : Ensemble} {site : VarId → Site} {r : Recipe} {n input output : Nat}
    {V as : List S} {slots : Nat → Option (Word S)} {literals : Nat → List Literal}
    {inputs : Nat → Option (Datum S)}
    (hserves : ∀ i, i < e.neurons.length → ∃ ty, (site n).Serves k I r (e.start + i) V (literals i)
      ty (inputs i)) (hr : r.GivesScalar)
    (hindex : (site n).index = n) (hsite : (site n).input = input) (hinput : input < n)
    (hV : σ.Holds k input (.vector V)) (hne : input ≠ output) (houtput : output < n)
    (hslots : σ output = some (.vector slots)) (hfilled : Store.Filled slots as)
    (has : as.length = e.start) (hlen : e.stop ≤ k.length output)
    (hfresh : ∀ v, n ≤ v → σ v = none)
    (hvars : ∀ (i : Nat) (t : Ty), r.locals[i]? = some t →
      k.vars[n + 1 + i]?.map Variable.ty = some t) :
    Runs ((Code.ensemble e site r output n).exec k I σ)
      ((List.range e.neurons.length).mapM fun i => r.result I (literals i) (inputs i))
      fun bs τ => ∃ slots', τ = σ.set output (.vector slots') ∧
        Store.Filled slots' (as ++ bs) := by
  rw [Code.ensemble, Code.exec_loop]
  have hcount : ((e.stop : Int) - e.start).toNat = e.neurons.length := by
    simp [Ensemble.stop]
  rw [hcount]
  refine (Runs.range (P := fun bs τ => ∃ slots', τ = σ.set output (.vector slots') ∧
    Store.Filled slots' (as ++ bs)) ?_ ⟨slots, ?_, by simpa using hfilled⟩).imp fun bs τ h => h.2
  · rintro bs τ hbs ⟨slots', rfl, hfilled'⟩
    set τ := σ.set output (.vector slots') with hτ
    have hpos : (e.start : Int) + bs.length = (e.start + bs.length : Nat) := by push_cast; rfl
    rw [hpos]
    have hready : (site n).Ready k I (e.start + bs.length) V (n + 1)
        (τ.set n (.scalar (I.intWord (e.start + bs.length : Nat)))) := by
      refine ⟨?_, ?_, ?_, ?_, fun v hv => ?_⟩
      · rw [hindex]
        exact Nat.lt_succ_self n
      · rw [hindex, Store.set_same]
      · rw [hsite]
        exact Nat.lt_succ_of_lt hinput
      · rw [hsite]
        refine hV.congr ?_
        rw [Store.set_other _ _ (Nat.ne_of_lt hinput), hτ, Store.set_other _ _ hne]
      · rw [Store.set_other _ _ (Nat.ne_of_gt hv), hτ,
          Store.set_other _ _ (Nat.ne_of_gt (Nat.lt_trans houtput hv)), hfresh v (Nat.le_of_lt hv)]
    have hstop : e.start + bs.length < k.length output := by
      have : e.stop = e.start + e.neurons.length := rfl
      omega
    obtain ⟨ty, hserve⟩ := hserves bs.length hbs
    have hslots' : τ.set n (.scalar (I.intWord (e.start + bs.length : Nat))) output =
        some (.vector slots') := by
      rw [Store.set_other _ _ (Nat.ne_of_lt houtput), hτ, Store.set_same]
    have hrun := exec_member hserve hr hready hindex hvars (Nat.lt_succ_of_lt houtput) hslots' hstop
    refine hrun.map fun a τ' h => ?_
    obtain ⟨w, rfl, hw, hτ'⟩ := h
    refine ⟨Function.update slots' (e.start + bs.length) (some w), ?_, ?_⟩
    · rw [Store.leave_eq_set (v := output) (by rw [hτ, Store.set_same]) hw, hτ, Store.set_set]
      intro v hv hsome
      have hvn : v < n := by
        by_contra hge
        rw [hτ, Store.set_other _ _ hv, hfresh v (Nat.not_lt.1 hge)] at hsome
        cases hsome
      rw [hτ' v (Nat.lt_succ_of_lt hvn) hv, Store.set_other _ _ (Nat.ne_of_lt hvn)]
    · have hconcat := hfilled'.concat w
      rwa [List.length_append, has, List.append_assoc] at hconcat
  · funext v
    by_cases hv : v = output <;> simp [hv, hslots]

end

end Synapse
