import Mathlib.Tactic
import Synapse.Proofs.Assignments

namespace Synapse

theorem toList_numbered (family : String) (n : Nat) :
    (toString family ++ toString n).toList = family.toList ++ Nat.toDigits 10 n := by
  simp only [String.toList_append, Nat.toString_eq_repr, Nat.toList_repr]
  rfl

theorem numbered_injective (family : String) :
    Function.Injective fun n : Nat => toString family ++ toString n := by
  intro m n h
  have hlist := congrArg String.toList h
  rw [toList_numbered, toList_numbered, List.append_cancel_left_eq] at hlist
  rw [← Nat.ofDigitChars_ten_toDigits (n := m), hlist, Nat.ofDigitChars_ten_toDigits]

/-- A name without its number. -/
def stem (name : String) : List Char := name.toList.takeWhile fun c => !c.isDigit

theorem stem_numbered {family : String} (h : family.toList.all fun c => !c.isDigit) (n : Nat) :
    stem (toString family ++ toString n) = family.toList := by
  have hdigits : (Nat.toDigits 10 n).takeWhile (fun c => !c.isDigit) = [] := by
    cases hn : Nat.toDigits 10 n with
    | nil => rfl
    | cons c cs =>
      have hc : c.isDigit :=
        Nat.isDigit_of_mem_toDigits (n := n) (by decide) (Nat.le_refl 10) (by simp [hn])
      simp [hc]
  rw [stem, toList_numbered, List.takeWhile_append_of_pos (by simpa using h), hdigits,
    List.append_nil]

theorem stem_temporary (n : Nat) : stem s!"t{n}" = ['t'] := stem_numbered (by decide) n

theorem stem_index (n : Nat) : stem s!"idx{n}" = ['i', 'd', 'x'] := stem_numbered (by decide) n

theorem stem_layer (l : LayerId) : stem s!"layer{l}" = ['l', 'a', 'y', 'e', 'r'] :=
  stem_numbered (by decide) l

theorem ne_of_stem {name name' : String} {letters letters' : List Char} (h : stem name = letters)
    (h' : stem name' = letters') (hne : letters ≠ letters') : name ≠ name' := by
  intro heq
  rw [heq, h'] at h
  exact hne h.symm

theorem localNames_append (t i t' i' t'' i'' : Nat) :
    (localNames t i (t' + t'') (i' + i'')).Perm
      (localNames t i t' i' ++ localNames (t + t') (i + i') t'' i'') := by
  simp only [localNames, ← List.range'_append_1, List.map_append, List.append_assoc]
  refine List.Perm.append_left _ ?_
  rw [← List.append_assoc, ← List.append_assoc]
  exact List.Perm.append_right _ List.perm_append_comm

theorem stem_of_mem_localNames {name : String} {t i t' i' : Nat}
    (h : name ∈ localNames t i t' i') : stem name = ['t'] ∨ stem name = ['i', 'd', 'x'] := by
  rcases List.mem_append.1 h with h | h
  · obtain ⟨n, -, rfl⟩ := List.mem_map.1 h
    exact .inl (stem_temporary n)
  · obtain ⟨n, -, rfl⟩ := List.mem_map.1 h
    exact .inr (stem_index n)

theorem nodup_localNames (t i t' i' : Nat) : (localNames t i t' i').Nodup := by
  have htemporaries : ((List.range' t t').map fun n => s!"t{n}").Nodup :=
    List.Nodup.map (numbered_injective "t") List.nodup_range'
  have hindices : ((List.range' i i').map fun n => s!"idx{n}").Nodup :=
    List.Nodup.map (numbered_injective "idx") List.nodup_range'
  refine htemporaries.append hindices ?_
  intro name hname hname'
  obtain ⟨m, -, rfl⟩ := List.mem_map.1 hname
  obtain ⟨n, -, hn⟩ := List.mem_map.1 hname'
  exact ne_of_stem (stem_index n) (stem_temporary m) (by decide) hn

/-- All names of a kernel that has vectors for the given layers, and so many temporaries and
indices. -/
def kernelNames (layers : List LayerId) (t i : Nat) : List String :=
  "input" :: "output" :: (layers.map (fun l => s!"layer{l}") ++ localNames 0 0 t i)

theorem nodup_kernelNames {layers : List LayerId} (h : layers.Nodup) (t i : Nat) :
    (kernelNames layers t i).Nodup := by
  have hlayers : (layers.map fun l => s!"layer{l}").Nodup := h.map (numbered_injective "layer")
  have hstem : ∀ name ∈ layers.map (fun l => s!"layer{l}"),
      stem name = ['l', 'a', 'y', 'e', 'r'] := by
    intro name hname
    obtain ⟨l, -, rfl⟩ := List.mem_map.1 hname
    exact stem_layer l
  have hrest : (layers.map (fun l => s!"layer{l}") ++ localNames 0 0 t i).Nodup := by
    refine hlayers.append (nodup_localNames 0 0 t i) ?_
    intro name hname hname'
    have hlayer := hstem name hname
    rcases stem_of_mem_localNames hname' with hlocal | hlocal <;> simp [hlayer] at hlocal
  have hparameter : ∀ name, stem name ∉ [['l', 'a', 'y', 'e', 'r'], ['t'], ['i', 'd', 'x']] →
      name ∉ layers.map (fun l => s!"layer{l}") ++ localNames 0 0 t i := by
    intro name hname hmem
    rcases List.mem_append.1 hmem with hmem | hmem
    · simp [hstem name hmem] at hname
    · rcases stem_of_mem_localNames hmem with hlocal | hlocal <;> simp [hlocal] at hname
  have hinput := hparameter "input" (by decide)
  have houtput := hparameter "output" (by decide)
  simp only [kernelNames, List.nodup_cons, List.mem_cons, not_or]
  exact ⟨⟨by decide, hinput⟩, houtput, hrest⟩

/-- A build has the names of a kernel with vectors for the given layers. -/
def Build.Named (b : Build) (layers : List LayerId) : Prop :=
  (b.vars.toList.map Variable.name).Perm (kernelNames layers b.temporaries b.indices)

theorem Build.named_new (input output : Ty) :
    Build.Named { vars := (Kernel.new input output).vars } [] := List.Perm.refl _

namespace Build.Named

variable {b : Build} {layers : List LayerId}

theorem emit {α : Type} {x : Emit α} {tys : List Ty} {roles : List Role}
    {Q : Array Node → α → Prop} (h : b.Named layers) (hx : x.Emits b tys roles Q) :
    (x b).2.Named layers := by
  obtain ⟨new, hvars, _, hnames⟩ := hx.grows.vars
  have hnew : (kernelNames layers b.temporaries b.indices ++
      Role.names b.temporaries b.indices roles).Perm
        (kernelNames layers (x b).2.temporaries (x b).2.indices) := by
    have hperm := (Role.names_perm b.temporaries b.indices roles).append_left
      (localNames 0 0 b.temporaries b.indices)
    have hlocal := localNames_append 0 0 b.temporaries b.indices (roles.countP (· ≠ .index))
      (roles.count .index)
    rw [Nat.zero_add, Nat.zero_add, ← hx.grows.temporaries, ← hx.grows.indices] at hlocal
    simp only [kernelNames, List.cons_append, List.append_assoc]
    exact (((hperm.trans hlocal.symm).append_left _).cons _).cons _
  rw [Named, hvars, List.map_append, hnames]
  exact (h.append_right _).trans hnew

theorem declare (h : b.Named layers) (l : LayerId) (ty : Ty) :
    (Emit.declare s!"layer{l}" ty b).2.Named (l :: layers) := by
  have hnew : (kernelNames layers b.temporaries b.indices ++ [s!"layer{l}"]).Perm
      (kernelNames (l :: layers) b.temporaries b.indices) := by
    simp only [kernelNames, List.cons_append, List.map_cons]
    exact ((List.perm_append_singleton _ _).cons _).cons _
  simp only [Named, Emit.declare, Array.toList_push, List.map_append, List.map_singleton]
  exact (h.append_right _).trans hnew

end Build.Named

namespace Network

variable {net : Network}

theorem loweringEnsemble_named {e : Ensemble} {input output : VarId} {b : Build}
    {q : Build × Stmt} {layers : List LayerId} (hb : b.Named layers)
    (h : net.loweringEnsemble e input output b = .ok q) : q.1.Named layers := by
  unfold loweringEnsemble at h
  split at h
  · cases h
  · rw [← Except.ok.inj h]
    exact Build.Named.emit (b := { b with tables := _ }) hb (Emit.emits_ensemble _ e _ _ output)

theorem loweringEnsembles_named {es : List Ensemble} {input output : VarId} {b : Build}
    {q : Build × List Stmt} {layers : List LayerId} (hb : b.Named layers)
    (h : net.loweringEnsembles input output es b = .ok q) : q.1.Named layers := by
  induction es generalizing b q with
  | nil =>
    obtain rfl := Except.ok.inj h
    exact hb
  | cons e es ih =>
    obtain ⟨here, hhere, h⟩ := bind_eq_ok.1 h
    obtain ⟨below, hbelow, h⟩ := bind_eq_ok.1 h
    obtain rfl := Except.ok.inj h
    have hrest : below.1.Named layers := ih (loweringEnsemble_named hb hhere) hbelow
    exact hrest

/-- The layers that have a vector of their own, the last one first. -/
def vectorLayers (last : LayerId) (layers : List (Layer × LayerId)) : List LayerId :=
  ((layers.map Prod.snd).filter (· ≠ last)).reverse

theorem loweringLayers_named {layers : List (Layer × LayerId)} {last : LayerId} {input : VarId}
    {b : Build} {q : Build × List Stmt} {done : List LayerId} (hb : b.Named done)
    (h : net.loweringLayers last input layers b = .ok q) :
    q.1.Named (vectorLayers last layers ++ done) := by
  induction layers generalizing input b q done with
  | nil =>
    obtain rfl := Except.ok.inj h
    exact hb
  | cons p rest ih =>
    obtain ⟨es, _, h⟩ := bind_eq_ok.1 h
    obtain ⟨here, hhere, h⟩ := bind_eq_ok.1 h
    obtain ⟨below, hbelow, h⟩ := bind_eq_ok.1 h
    obtain rfl := Except.ok.inj h
    by_cases hlast : p.2 = last
    · rw [if_pos hlast] at hhere
      have hnamed := ih (loweringEnsembles_named hb hhere) hbelow
      simpa [vectorLayers, hlast] using hnamed
    · rw [if_neg hlast] at hhere
      have hnamed := ih (loweringEnsembles_named (hb.declare p.2 p.1.vectorTy) hhere) hbelow
      simpa [vectorLayers, hlast] using hnamed

/-- No two variables of a kernel have one name. -/
theorem nodup_names {k : Kernel} (h : net.lowering = .ok k) :
    (k.vars.toList.map Variable.name).Nodup := by
  obtain ⟨_, _, h⟩ := bind_eq_ok.1 h
  obtain ⟨q, hq, h⟩ := bind_eq_ok.1 h
  obtain rfl := Except.ok.inj h
  have hnamed := loweringLayers_named (Build.named_new _ _) hq
  have hlayers : (vectorLayers (net.layers.size - 1) net.loweredLayers ++ []).Nodup := by
    have hascends := (ascends_loweredLayers net).pairwise
    rw [List.append_nil, vectorLayers, List.nodup_reverse]
    refine List.Nodup.filter _ ?_
    exact (List.pairwise_map.2 hascends).imp fun hlt => Nat.ne_of_lt hlt
  exact hnamed.nodup_iff.2 (nodup_kernelNames hlayers _ _)

end Network

end Synapse
