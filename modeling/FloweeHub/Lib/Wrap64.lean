import Mathlib.Algebra.Order.BigOperators.Group.List
import Mathlib.Tactic.Ring

/-! Sixty-four bit signed arithmetic: a running sum equals the wrapped exact sum, and the exact sum
when that fits. -/

namespace FloweeHub.Lib.Wrap64

open List

/-- The value an `int64_t` holds after a computation with exact result `x`. -/
def wrap (x : ℤ) : ℤ := x.bmod (2 ^ 64)

/-- The exact result fits, so no overflow took place. -/
def Fits (x : ℤ) : Prop := -2 ^ 63 ≤ x ∧ x < 2 ^ 63

instance (x : ℤ) : Decidable (Fits x) := inferInstanceAs (Decidable (_ ∧ _))

def add (a b : ℤ) : ℤ := wrap (a + b)

def sub (a b : ℤ) : ℤ := wrap (a - b)

theorem fits_wrap (x : ℤ) : Fits (wrap x) := by
  have hlo := Int.le_bmod (x := x) (m := 2 ^ 64) (by decide)
  have hhi := Int.bmod_lt (x := x) (m := 2 ^ 64) (by decide)
  exact ⟨hlo, hhi⟩

variable {x a b : ℤ}

theorem wrap_eq_self (h : Fits x) : wrap x = x := by
  refine Int.bmod_eq_of_le ?_ ?_
  · have := h.1; norm_num at this ⊢; exact this
  · have := h.2; norm_num at this ⊢; exact this

theorem add_of_fits (h : Fits (a + b)) : add a b = a + b := wrap_eq_self h

theorem sub_of_fits (h : Fits (a - b)) : sub a b = a - b := wrap_eq_self h

theorem wrap_add_wrap_left (a b : ℤ) : wrap (wrap a + b) = wrap (a + b) := by
  simp [wrap]

/-- Two exact results with the same wrapped value differ by a multiple of `2^64`. -/
theorem wrap_eq_sub_mul (x : ℤ) : ∃ k : ℤ, wrap x = x - 2 ^ 64 * k := by
  refine ⟨x.bdiv (2 ^ 64), ?_⟩
  rw [wrap, eq_sub_iff_add_eq]
  exact_mod_cast Int.bmod_add_bdiv x (2 ^ 64)

/-- Wrapping a non-negative result can only lose whole multiples of `2^64`. -/
theorem wrap_eq_sub_mul_of_nonneg (h : 0 ≤ x) : ∃ k : ℤ, 0 ≤ k ∧ wrap x = x - 2 ^ 64 * k := by
  obtain ⟨k, hk⟩ := wrap_eq_sub_mul x
  have hfit := (fits_wrap x).2
  refine ⟨k, ?_, hk⟩
  omega

theorem wrap_le_self (h : 0 ≤ x) : wrap x ≤ x := by
  obtain ⟨k, hk, heq⟩ := wrap_eq_sub_mul_of_nonneg h
  omega

/-- Add the values one after the other, wrapping after every addition. -/
def sumFrom (acc : ℤ) (xs : List ℤ) : ℤ := xs.foldl add acc

@[simp] theorem sumFrom_nil (acc : ℤ) : sumFrom acc [] = acc := rfl

@[simp] theorem sumFrom_cons (acc x : ℤ) (xs : List ℤ) :
    sumFrom acc (x :: xs) = sumFrom (add acc x) xs := rfl

theorem sumFrom_eq_wrap (acc : ℤ) (h : Fits acc) (xs : List ℤ) :
    sumFrom acc xs = wrap (acc + xs.sum) := by
  induction xs generalizing acc with
  | nil => simp [wrap_eq_self h]
  | cons x xs ih =>
    rw [sumFrom_cons, ih (add acc x) (fits_wrap _), add, wrap_add_wrap_left, sum_cons, add_assoc]

/-- The exact result of every addition that `sumFrom` performs. -/
def partialSums (acc : ℤ) : List ℤ → List ℤ
  | [] => []
  | x :: xs => (acc + x) :: partialSums (add acc x) xs

/-- Non-negative values whose total fits are summed without any overflow. -/
theorem fits_partialSums {acc : ℤ} {xs : List ℤ} (ha : 0 ≤ acc) (hx : ∀ x ∈ xs, 0 ≤ x)
    (h : acc + xs.sum < 2 ^ 63) : ∀ s ∈ partialSums acc xs, Fits s := by
  induction xs generalizing acc with
  | nil => simp [partialSums]
  | cons x xs ih =>
    have hx0 := hx x mem_cons_self
    have htail : 0 ≤ xs.sum := sum_nonneg fun y hy => hx y (mem_cons_of_mem _ hy)
    rw [sum_cons] at h
    have hfit : Fits (acc + x) := ⟨by omega, by omega⟩
    rintro s hs
    rw [partialSums, add_of_fits hfit] at hs
    rcases mem_cons.mp hs with rfl | hs
    · exact hfit
    · exact ih (by omega) (fun y hy => hx y (mem_cons_of_mem _ hy)) (by omega) s hs

end FloweeHub.Lib.Wrap64
