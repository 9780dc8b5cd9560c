import Mathlib.Data.List.AList

/-! Tables with one value for each key. The order of the entries has no meaning, so that a
table is described by what it gives for a key. -/

namespace FloweeHub.Lib

open List

variable {κ ν : Type*} [DecidableEq κ] {t : AList fun _ : κ => ν} {k k' : κ} {v : ν}

abbrev Table (κ ν : Type*) := AList fun _ : κ => ν

namespace Table

theorem lookup_insert (t : Table κ ν) (k k' : κ) (v : ν) :
    (t.insert k v).lookup k' = if k' = k then some v else t.lookup k' := by
  by_cases h : k' = k
  · subst h
    rw [if_pos rfl, AList.lookup_insert]
  · rw [if_neg h, AList.lookup_insert_ne h]

theorem lookup_erase (t : Table κ ν) (k k' : κ) : (t.erase k).lookup k' =
      if k' = k then none else t.lookup k' := by
  by_cases h : k' = k
  · subst h
    rw [if_pos rfl, AList.lookup_erase]
  · rw [if_neg h, AList.lookup_erase_ne h]

theorem mem_entries {t : Table κ ν} : (⟨k, v⟩ : Sigma fun _ : κ => ν) ∈ t.entries ↔
      t.lookup k = some v :=
  AList.mem_lookup_iff.symm

theorem mem_iff_lookup {t : Table κ ν} : k ∈ t ↔ ∃ v, t.lookup k = some v := by
  rw [← AList.lookup_isSome, Option.isSome_iff_exists]

/-- The value of a key is replaced; `d` is changed for a new key. -/
def modify (t : Table κ ν) (k : κ) (d : ν) (f : ν → ν) : Table κ ν :=
  t.insert k (f ((t.lookup k).getD d))

theorem lookup_modify {t : Table κ ν} (h : k ∈ t) (d : ν) (f : ν → ν) (k' : κ) :
    (t.modify k d f).lookup k' = if k' = k then (t.lookup k').map f else t.lookup k' := by
  obtain ⟨v, hv⟩ := mem_iff_lookup.mp h
  rw [modify, hv, lookup_insert]
  split_ifs with hk
  · rw [hk, hv]
    rfl
  · rfl

theorem mem_modify {t : Table κ ν} (h : k ∈ t) (d : ν) (f : ν → ν) (k' : κ) : k' ∈ t.modify k d f ↔
      k' ∈ t := by
  rw [modify, AList.mem_insert]
  exact ⟨fun hk => hk.elim (fun hc => hc ▸ h) id, Or.inr⟩

variable {ks : List κ}

/-- A loop over keys of the table changes each of their values once. -/
theorem lookup_foldl_modify {t : Table κ ν} (hnd : ks.Nodup) (hmem : ∀ k ∈ ks, k ∈ t) (d : ν)
    (f : ν → ν) (k' : κ) :
    (ks.foldl (fun t k => t.modify k d f) t).lookup k' =
      if k' ∈ ks then (t.lookup k').map f else t.lookup k' := by
  induction ks generalizing t with
  | nil => simp
  | cons k ks ih =>
    obtain ⟨hk, hrest⟩ := nodup_cons.mp hnd
    have hin := hmem k mem_cons_self
    rw [foldl_cons, ih hrest fun q hq => (mem_modify hin d f q).mpr (hmem q (mem_cons_of_mem _ hq)),
      lookup_modify hin]
    by_cases hkk : k' = k
    · subst hkk
      simp [hk]
    · simp [hkk]

/-- The value of a key is replaced, as long as there is one and `f` has a result for it. -/
def update? (t : Table κ ν) (k : κ) (f : ν → Option ν) : Option (Table κ ν) :=
  (t.lookup k).bind fun v => (f v).map fun v' => t.insert k v'

/-- The same loop with a change that may fail, where it does not. -/
theorem foldlM_update? {t : Table κ ν} (hnd : ks.Nodup) {f : ν → Option ν} {g : ν → ν}
    (hf : ∀ k ∈ ks, ∃ v, t.lookup k = some v ∧ f v = some (g v)) :
    ∃ t', ks.foldlM (fun t k => t.update? k f) t = some t' ∧
      ∀ k', t'.lookup k' = if k' ∈ ks then (t.lookup k').map g else t.lookup k' := by
  induction ks generalizing t with
  | nil => exact ⟨t, rfl, by simp⟩
  | cons k ks ih =>
    obtain ⟨hk, hrest⟩ := nodup_cons.mp hnd
    obtain ⟨v, hv, hfv⟩ := hf k mem_cons_self
    have hne : ∀ q ∈ ks, q ≠ k := fun q hq hc => hk (hc ▸ hq)
    obtain ⟨t', ht', hall⟩ := ih (t := t.insert k (g v)) hrest fun q hq => by
      rw [lookup_insert, if_neg (hne q hq)]
      exact hf q (mem_cons_of_mem _ hq)
    refine ⟨t', ?_, fun k' => ?_⟩
    · rw [foldlM_cons, update?, hv, Option.bind_some, hfv]
      exact ht'
    · rw [hall, lookup_insert]
      by_cases hkk : k' = k
      · subst hkk
        simp [hk, hv]
      · simp [hkk]

end Table

end FloweeHub.Lib
