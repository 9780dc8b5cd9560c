import Mathlib.Data.List.Sort

/-! Binary search. It ends with an equal item, or with the position between the smaller and the
larger ones. -/

namespace FloweeHub.Lib.Bisect

open List

variable {cmp : ℕ → Ordering} {turns lo hi : ℕ} {m : ℕ} {r : Result}

/-- The index of the item, or where it would be. -/
inductive Result
  | found (m : ℕ)
  | missing (l : ℕ)
deriving DecidableEq, Repr

/-- The search in the interval from `lo` up to, but not with, `hi`. -/
def bisect (cmp : ℕ → Ordering) : ℕ → ℕ → ℕ → Result
  | 0, lo, _ => .missing lo
  | turns + 1, lo, hi =>
    if lo < hi then
      let m := (lo + (hi - 1)) / 2
      match cmp m with
      | .lt => bisect cmp turns (m + 1) hi
      | .gt => bisect cmp turns lo m
      | .eq => .found m
    else .missing lo

/-- Of two items the first is too small or the second too large. -/
def Increasing (cmp : ℕ → Ordering) (lo hi : ℕ) : Prop := ∀ i j, lo ≤ i → i < j → j < hi →
    cmp i = .lt ∨ cmp j = .gt

theorem Increasing.mono {lo' hi' : ℕ} (h : Increasing cmp lo hi) (hlo : lo ≤ lo') (hhi : hi' ≤ hi) :
    Increasing cmp lo' hi' :=
  fun i j hi' hij hj => h i j (hlo.trans hi') hij (lt_of_lt_of_le hj hhi)

/-- What a result says of the items of the interval. -/
def Result.Sound (cmp : ℕ → Ordering) (lo hi : ℕ) : Result → Prop
  | .found m => lo ≤ m ∧ m < hi ∧ cmp m = .eq
  | .missing l =>
    lo ≤ l ∧ l ≤ hi ∧ (∀ i, lo ≤ i → i < l → cmp i = .lt) ∧ ∀ i, l ≤ i → i < hi → cmp i = .gt

theorem Result.Sound.extend_left (h : r.Sound cmp (m + 1) hi) (hm : lo ≤ m)
    (hlt : ∀ i, lo ≤ i → i ≤ m → cmp i = .lt) : r.Sound cmp lo hi := by
  cases r with
  | found k => exact ⟨by have := h.1; omega, h.2⟩
  | missing l =>
    obtain ⟨hl, hhi, hsm, hlg⟩ := h
    refine ⟨by omega, hhi, fun i hi' hil => ?_, hlg⟩
    by_cases him : i ≤ m
    · exact hlt i hi' him
    · exact hsm i (by omega) hil

theorem Result.Sound.extend_right (h : r.Sound cmp lo m) (hm : m ≤ hi)
    (hgt : ∀ i, m ≤ i → i < hi → cmp i = .gt) : r.Sound cmp lo hi := by
  cases r with
  | found k => exact ⟨h.1, by have := h.2.1; omega, h.2.2⟩
  | missing l =>
    obtain ⟨hl, hhi, hsm, hlg⟩ := h
    refine ⟨hl, by omega, hsm, fun i hli hi' => ?_⟩
    by_cases him : i < m
    · exact hlg i hli him
    · exact hgt i (by omega) hi'

theorem bisect_sound (h : Increasing cmp lo hi) (hle : lo ≤ hi) (hturns : hi ≤ lo + turns) :
    (bisect cmp turns lo hi).Sound cmp lo hi := by
  -- each turn shortens the interval, and what it cuts off is known to be too small or too large
  induction turns generalizing lo hi with
  | zero => exact ⟨le_rfl, hle, fun i _ _ => by omega, fun i _ _ => by omega⟩
  | succ turns ih =>
    rw [bisect]
    split_ifs with hlt
    · have hm : lo ≤ (lo + (hi - 1)) / 2 ∧ (lo + (hi - 1)) / 2 < hi := by omega
      generalize (lo + (hi - 1)) / 2 = m at hm
      simp only
      cases hcmp : cmp m with
      | lt =>
        refine (ih (h.mono (by omega) le_rfl) (by omega) (by omega)).extend_left hm.1 fun i hi' him => ?_
        rcases Nat.lt_or_eq_of_le him with him | rfl
        · exact (h i m hi' him hm.2).resolve_right (by rw [hcmp]; decide)
        · exact hcmp
      | gt =>
        refine (ih (h.mono le_rfl hm.2.le) hm.1 (by omega)).extend_right hm.2.le fun i hmi hi' => ?_
        rcases Nat.lt_or_eq_of_le hmi with hmi | rfl
        · exact (h m i hm.1 hmi hi').resolve_left (by rw [hcmp]; decide)
        · exact hcmp
      | eq => exact ⟨hm.1, hm.2, hcmp⟩
    · exact ⟨le_rfl, hle, fun i _ _ => by omega, fun i _ _ => by omega⟩

section List

variable {α κ : Type*} [LinearOrder κ] {key : α → κ} {cmp : α → Ordering} {l : List α} {k : κ}
  {a : α} {i : ℕ}

/-- The comparison of the item at a position. -/
def at? (cmp : α → Ordering) (l : List α) (i : ℕ) : Ordering := (l[i]?).elim .gt cmp

theorem at?_eq (h : l[i]? = some a) : at? cmp l i = cmp a := by rw [at?, h]; rfl

variable (hcmp : ∀ a, cmp a = compare (key a) k)

include hcmp

section

variable (h : l.Pairwise fun a b => key a < key b)

include h

theorem increasing_at? {lo hi : ℕ} (hhi : hi ≤ l.length) : Increasing (at? cmp l) lo hi := by
  intro i j _ hij hj
  have hj' : j < l.length := by omega
  have hi' : i < l.length := by omega
  have hlt : key (l.get ⟨i, hi'⟩) < key (l.get ⟨j, hj'⟩) := pairwise_iff_get.mp h _ _ hij
  rw [at?_eq (getElem?_eq_getElem hi'), at?_eq (getElem?_eq_getElem hj'), hcmp, hcmp, compare_lt_iff_lt,
    compare_gt_iff_gt]
  rcases lt_or_ge (key (l.get ⟨i, hi'⟩)) k with hik | hik
  · exact .inl hik
  · exact .inr (lt_of_le_of_lt hik hlt)

/-- The search for a key in a part of a sorted list finds it if it is there. -/
theorem bisect_found {lo hi : ℕ}
    (hhi : hi ≤ l.length) (hi' : l[i]? = some a) (hk : key a = k) (hlo : lo ≤ i) (hilt : i < hi) :
    bisect (at? cmp l) l.length lo hi = .found i := by
  have heq : at? cmp l i = .eq := by rw [at?_eq hi', hcmp, compare_eq_iff_eq, hk]
  have hsnd := bisect_sound (increasing_at? hcmp h hhi) (by omega : lo ≤ hi)
    (by omega : hi ≤ lo + l.length)
  cases hr : bisect (at? cmp l) l.length lo hi with
  | found m =>
    rw [hr] at hsnd
    obtain ⟨hm, hmhi, hmeq⟩ := hsnd
    have hinc := @increasing_at? _ _ _ key cmp l k hcmp h lo hi hhi
    -- two different positions cannot both hold the key
    rcases lt_trichotomy i m with him | rfl | hmi
    · have := hinc i m hlo him hmhi
      simp [heq, hmeq] at this
    · rfl
    · have := hinc m i hm hmi hilt
      simp [heq, hmeq] at this
  | missing j =>
    rw [hr] at hsnd
    obtain ⟨-, -, hsm, hlg⟩ := hsnd
    rcases lt_or_ge i j with hij | hij
    · have := hsm i hlo hij
      simp [heq] at this
    · have := hlg i hij hilt
      simp [heq] at this

theorem mem_of_bisect {lo hi : ℕ}
    (hlo : lo ≤ hi) (hhi : hi ≤ l.length) (hr : bisect (at? cmp l) l.length lo hi = .found m) :
    ∃ a, l[m]? = some a ∧ key a = k := by
  have hsnd := bisect_sound (increasing_at? hcmp h hhi) hlo (by omega : hi ≤ lo + l.length)
  rw [hr] at hsnd
  obtain ⟨-, hmhi, hmeq⟩ := hsnd
  have hm : m < l.length := by omega
  refine ⟨l.get ⟨m, hm⟩, getElem?_eq_getElem hm, ?_⟩
  rwa [at?_eq (getElem?_eq_getElem hm), hcmp, compare_eq_iff_eq] at hmeq

/-- A key that is not in the list belongs in front of the position the search ends with. -/
theorem bisect_missing (hk : ∀ a ∈ l, key a ≠ k) :
    ∃ i, bisect (at? cmp l) l.length 0 l.length = .missing i ∧ (∀ a ∈ l.take i, key a < k) ∧
      ∀ a ∈ l.drop i, k < key a := by
  have hsnd := bisect_sound (@increasing_at? _ _ _ key cmp l k hcmp h 0 l.length le_rfl) (Nat.zero_le _)
    (by omega : l.length ≤ 0 + l.length)
  cases hr : bisect (at? cmp l) l.length 0 l.length with
  | found m =>
    obtain ⟨a, ha, hak⟩ := mem_of_bisect hcmp h (Nat.zero_le _) le_rfl hr
    exact absurd hak (hk a (mem_of_getElem? ha))
  | missing i =>
    rw [hr] at hsnd
    obtain ⟨-, hi, hsm, hlg⟩ := hsnd
    refine ⟨i, rfl, fun a ha => ?_, fun a ha => ?_⟩
    · obtain ⟨j, hj, rfl⟩ := mem_iff_getElem.mp ha
      rw [length_take] at hj
      have hlt := hsm j (Nat.zero_le _) (by omega)
      rw [at?_eq (getElem?_eq_getElem (by omega)), hcmp, compare_lt_iff_lt] at hlt
      rwa [getElem_take]
    · obtain ⟨j, hj, rfl⟩ := mem_iff_getElem.mp ha
      rw [length_drop] at hj
      have hgt := hlg (i + j) (by omega) (by omega)
      rw [at?_eq (getElem?_eq_getElem (by omega)), hcmp, compare_gt_iff_gt] at hgt
      rwa [getElem_drop]

end

omit hcmp

end List

end FloweeHub.Lib.Bisect
