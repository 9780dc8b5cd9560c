import Mathlib.Data.List.Perm.Basic
import Mathlib.Data.List.Perm.Lattice

/-! Lists of records looked up by a key that may be stored more than once. A removal takes out the
first record under the key, so removals are accounted for up to permutation. -/

namespace FloweeHub.Lib.KeyedBag

open scoped List

variable {α κ : Type*} [DecidableEq κ] (key : α → κ)

def lookup (k : κ) (xs : List α) : Option α := xs.find? fun x => key x = k

def discard (k : κ) (xs : List α) : List α := xs.eraseP fun x => key x = k

variable {key} {k : κ} {xs ys : List α} {a : α}

theorem key_of_lookup (h : lookup key k xs = some a) : key a = k := by
  simpa using List.find?_some h

theorem mem_of_lookup (h : lookup key k xs = some a) : a ∈ xs := List.mem_of_find?_eq_some h

theorem lookup_eq_none_iff : lookup key k xs = none ↔ ∀ x ∈ xs, key x ≠ k := by
  simp [lookup]

variable (key) in
theorem exists_lookup_of_mem (h : a ∈ xs) : ∃ b, lookup key (key a) xs = some b := by
  cases hl : lookup key (key a) xs with
  | none => exact absurd rfl (lookup_eq_none_iff.mp hl a h)
  | some b => exact ⟨b, rfl⟩

theorem lookup_append_of_some (h : lookup key k xs = some a) : lookup key k (xs ++ ys) = some a := by
  simp [lookup, List.find?_append, show xs.find? (fun x => key x = k) = some a from h]

theorem lookup_append_of_none (h : lookup key k xs = none) :
    lookup key k (xs ++ ys) = lookup key k ys := by
  simp [lookup, List.find?_append, show xs.find? (fun x => key x = k) = none from h]

theorem discard_of_lookup_none (h : lookup key k xs = none) : discard key k xs = xs := by
  refine List.eraseP_of_forall_not fun x hx => ?_
  simpa using lookup_eq_none_iff.mp h x hx

theorem perm_cons_discard (h : lookup key k xs = some a) : xs ~ a :: discard key k xs := by
  induction xs with
  | nil => simp [lookup] at h
  | cons x xs ih =>
    by_cases hx : key x = k
    · obtain rfl : x = a := by simpa [lookup, hx] using h
      simp [discard, hx]
    · have h' : lookup key k xs = some a := by simpa [lookup, hx] using h
      have hd : discard key k (x :: xs) = x :: discard key k xs := by simp [discard, hx]
      rw [hd]
      exact ((ih h').cons x).trans (.swap a x _)

theorem discard_sublist : discard key k xs <+ xs := List.eraseP_sublist

/-- A key that is stored once is gone when it has been taken. -/
theorem lookup_discard_self (hn : (xs.map key).Nodup) : lookup key k (discard key k xs) = none := by
  cases hl : lookup key k xs with
  | none => rw [discard_of_lookup_none hl, hl]
  | some a =>
    refine lookup_eq_none_iff.mpr fun x hx hkey => ?_
    have hperm := (perm_cons_discard hl).map key
    have hnot := (List.nodup_cons.mp (hperm.nodup_iff.mp hn)).1
    exact hnot (List.mem_map.mpr ⟨x, hx, hkey.trans (key_of_lookup hl).symm⟩)

/-- Taking a record under one key does not change what is found under another. -/
theorem lookup_discard_of_ne {j : κ} (h : k ≠ j) :
    lookup key k (discard key j xs) = lookup key k xs := by
  induction xs with
  | nil => rfl
  | cons x xs ih =>
    by_cases hj : key x = j
    · simp [discard, lookup, hj, Ne.symm h]
    · have hd : discard key j (x :: xs) = x :: discard key j xs := by simp [discard, hj]
      by_cases hk : key x = k
      · simp [hd, lookup, hk]
      · rw [hd]
        simpa [lookup, hk] using ih

variable (key) in
/-- Take one record under each key in turn. The flag tells whether every key was found. -/
def takeAll : List κ → List α → Bool × List α
  | [], xs => (true, xs)
  | k :: ks, xs =>
    let r := takeAll ks (discard key k xs)
    ((lookup key k xs).isSome && r.1, r.2)

/-- Removals that all succeed split the bag into what they took and what is left. -/
theorem takeAll_split (ks : List κ) (h : (takeAll key ks xs).1) :
    ∃ taken, taken.map key = ks ∧ xs ~ taken ++ (takeAll key ks xs).2 := by
  induction ks generalizing xs with
  | nil => exact ⟨[], rfl, by simp [takeAll]⟩
  | cons k ks ih =>
    simp only [takeAll, Bool.and_eq_true, Option.isSome_iff_exists] at h ⊢
    obtain ⟨⟨a, ha⟩, hr⟩ := h
    obtain ⟨taken, hk, hp⟩ := ih hr
    refine ⟨a :: taken, by simp [hk, key_of_lookup ha], ?_⟩
    exact (perm_cons_discard ha).trans (hp.cons a)

/-- Taking the keys of `extra` leaves the rest, which holds none of them. -/
theorem takeAll_of_perm {rest extra : List α} (ks : List κ) (h : xs ~ rest ++ extra)
    (hk : extra.map key ~ ks) (hd : ∀ x ∈ rest, key x ∉ ks) :
    (takeAll key ks xs).1 ∧ (takeAll key ks xs).2 ~ rest := by
  induction ks generalizing xs extra with
  | nil =>
    obtain rfl : extra = [] := by simpa using hk
    exact ⟨rfl, by simpa [takeAll] using h⟩
  | cons k ks ih =>
    obtain ⟨e, he, rfl⟩ := List.mem_map.mp (hk.mem_iff.mpr (List.mem_cons_self (a := k)))
    obtain ⟨a, ha⟩ := exists_lookup_of_mem key (h.mem_iff.mpr (List.mem_append_right rest he))
    have hae : a ∈ extra := by
      rcases List.mem_append.mp (h.mem_iff.mp (mem_of_lookup ha)) with hm | hm
      · exact absurd (key_of_lookup ha ▸ List.mem_cons_self) (hd a hm)
      · exact hm
    obtain ⟨s, t, rfl⟩ := List.append_of_mem hae
    have hleft : discard key (key e) xs ~ rest ++ (s ++ t) := by
      have h1 : a :: discard key (key e) xs ~ a :: (rest ++ (s ++ t)) :=
        (perm_cons_discard ha).symm.trans (h.trans (by
          simpa [List.append_assoc] using @List.perm_middle _ a (rest ++ s) t))
      exact h1.cons_inv
    have hkeys : (s ++ t).map key ~ ks := by
      have h1 : key a :: (s ++ t).map key ~ key e :: ks := by
        refine List.Perm.trans ?_ hk
        simpa using (@List.perm_middle _ (key a) (s.map key) (t.map key)).symm
      rw [key_of_lookup ha] at h1
      exact h1.cons_inv
    have hrest := ih hleft hkeys fun x hx hmem => hd x hx (List.mem_cons_of_mem _ hmem)
    exact ⟨by simp [takeAll, ha, hrest.1], hrest.2⟩

/-- All keys are found and `rest` is left exactly when the keys are those of `extra`. -/
theorem takeAll_iff {rest extra : List α} (ks : List κ) (h : xs ~ rest ++ extra)
    (hd : ∀ x ∈ rest, key x ∉ ks) :
    ((takeAll key ks xs).1 ∧ (takeAll key ks xs).2 ~ rest) ↔ extra.map key ~ ks := by
  refine ⟨fun ⟨hall, hrest⟩ => ?_, fun hk => takeAll_of_perm ks h hk hd⟩
  obtain ⟨taken, hk, hp⟩ := takeAll_split ks hall
  have hspl : rest ++ extra ~ rest ++ taken :=
    h.symm.trans (hp.trans ((hrest.append_left taken).trans List.perm_append_comm))
  have hextra : extra ~ taken := (List.perm_append_left_iff rest).mp hspl
  exact hk ▸ hextra.map key

end FloweeHub.Lib.KeyedBag
