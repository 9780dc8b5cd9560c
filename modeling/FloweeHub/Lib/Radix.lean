import FloweeHub.Lib.Loops
import Mathlib.Data.List.DropRight
import Mathlib.Data.Nat.Digits.Lemmas

/-! Numbers written in one base, converted to another in a buffer of fixed length. Leading zeros
are kept apart. -/

namespace FloweeHub.Lib.Radix

open List Nat

variable {a b n : ℕ} {ds l : List ℕ}

/-- The buffer in base `b`, from its lowest digit, becomes `a` times as much and the carry. -/
def mulAdd (a b : ℕ) : ℕ → List ℕ → List ℕ × ℕ
  | carry, [] => ([], carry)
  | carry, d :: ds =>
    let r := mulAdd a b ((carry + a * d) / b) ds
    ((carry + a * d) % b :: r.1, r.2)

/-- A turn multiplies the number by `a` and adds a digit. -/
theorem mulAdd_spec (a : ℕ) (hb : 0 < b) (carry : ℕ) (ds : List ℕ) :
    (mulAdd a b carry ds).1.length = ds.length ∧ (∀ d ∈ (mulAdd a b carry ds).1, d < b) ∧
      ofDigits b (mulAdd a b carry ds).1 + b ^ ds.length * (mulAdd a b carry ds).2 =
        a * ofDigits b ds + carry := by
  induction ds generalizing carry with
  | nil => simp [mulAdd]
  | cons d ds ih =>
    obtain ⟨hlen, hlt, hval⟩ := ih ((carry + a * d) / b)
    refine ⟨by simp [mulAdd, hlen], forall_mem_cons.mpr ⟨mod_lt _ hb, hlt⟩, ?_⟩
    have hdiv := mod_add_div (carry + a * d) b
    simp only [mulAdd, ofDigits_cons, length_cons, pow_succ]
    nlinarith

/-- The digits are taken over from the highest on; there is no result when a carry is left. -/
def convert (a b size : ℕ) (l : List ℕ) : Option (List ℕ) :=
  l.foldlM (fun ds d => if (mulAdd a b d ds).2 = 0 then some (mulAdd a b d ds).1 else none)
    (replicate size 0)

/-- The digits of a buffer, the highest first and without leading zeros. -/
def strip (ds : List ℕ) : List ℕ := ds.reverse.dropWhile (· = 0)

theorem strip_eq (hb : 1 < b) (hds : ∀ d ∈ ds, d < b) :
    strip ds = (digits b (ofDigits b ds)).reverse := by
  suffices h : digits b (ofDigits b ds) =
    ds.rdropWhile (· = 0) by rw [h, strip, rdropWhile, reverse_reverse]
  induction ds using reverseRecOn with
  | nil => simp
  | append_singleton ds d ih =>
    by_cases hd : d = 0
    · rw [rdropWhile_concat_pos _ _ _ (by simpa using hd), hd, ofDigits_append_zero,
        ih (forall_mem_append.mp hds).1]
    · rw [rdropWhile_concat_neg _ _ _ (by simpa using hd),
        digits_ofDigits b hb _ hds (by simpa using hd)]

/-- No carry is left when the buffer is long enough. -/
theorem convert_spec (ha : 1 < a) (hb : 1 < b) (hl : ∀ d ∈ l, d < a) (hroom : a ^ l.length ≤ b ^ n) :
    ∃ ds, convert a b n l = some ds ∧ strip ds = (digits b (ofDigits a l.reverse)).reverse := by
  refine (Loops.foldlM_grow (P := fun done ds => ds.length = n ∧ (∀ d ∈ ds, d < b) ∧ ofDigits b ds =
    ofDigits a done.reverse) (fun done d rest ds hspl h => ?_) ⟨length_replicate, ?_,
    ofDigits_replicate_zero⟩).imp
      fun ds h => ⟨h.1, by rw [strip_eq hb h.2.2.1, h.2.2.2]⟩
  · obtain ⟨rfl, -, hval⟩ := h
    obtain ⟨hlen, hlt, hsum⟩ := mulAdd_spec a (zero_lt_of_lt hb) d ds
    have hdone : ofDigits a (done ++ [d]).reverse = a * ofDigits b ds + d := by
      rw [reverse_append, reverse_singleton, singleton_append, ofDigits_cons, hval, add_comm]
    have hbound := ofDigits_lt_base_pow_length ha (l := (done ++ [d]).reverse)
      fun x hx => hl x (by simp [hspl] at hx ⊢; tauto)
    have hle : a ^ (done ++ [d]).reverse.length ≤ a ^ l.length :=
      Nat.pow_le_pow_right (by omega) (by simp [hspl])
    have hcarry : (mulAdd a b d ds).2 = 0 := by
      by_contra hne
      have := Nat.le_mul_of_pos_right (b ^ ds.length) (pos_of_ne_zero hne)
      omega
    rw [hcarry, mul_zero, add_zero] at hsum
    exact ⟨_, if_pos hcarry, hlen, hlt, hsum.trans hdone.symm⟩
  · exact fun d hd => (eq_of_mem_replicate hd).trans_lt (zero_lt_of_lt hb)

/-- The integer approximation of a logarithm leaves room, if it is one for the base itself. -/
theorem room {p q : ℕ} (hq : 0 < q) (hb : 0 < b) (h : a ^ q ≤ b ^ p) (n : ℕ) :
    a ^ n ≤ b ^ (n * p / q + 1) := by
  refine (Nat.pow_le_pow_iff_left hq.ne').mp ?_
  calc (a ^ n) ^ q = (a ^ q) ^ n := pow_right_comm ..
    _ ≤ (b ^ p) ^ n := Nat.pow_le_pow_left h n
    _ = b ^ (n * p) := by rw [← pow_mul, mul_comm]
    _ ≤ b ^ ((n * p / q + 1) * q) :=
      Nat.pow_le_pow_right hb ((lt_mul_div_succ _ hq).le.trans_eq (mul_comm ..))
    _ = (b ^ (n * p / q + 1)) ^ q := pow_mul ..

/-- The number in base `b`, behind the same zeros. -/
def change (a b : ℕ) (l : List ℕ) : List ℕ :=
  l.takeWhile (· = 0) ++ (digits b (ofDigits a (l.dropWhile (· = 0)).reverse)).reverse

theorem zeros (l : List ℕ) : ∀ d ∈ l.takeWhile (· = 0), d = 0 := fun d hd => by
  simpa using mem_takeWhile_imp hd

theorem change_lt (a : ℕ) (hb : 1 < b) (l : List ℕ) : ∀ d ∈ change a b l, d < b := by
  refine forall_mem_append.mpr ⟨fun d hd => ?_, fun d hd => digits_lt_base hb (mem_reverse.mp hd)⟩
  rw [zeros l d hd]
  omega

theorem change_change (ha : 1 < a) (hb : 1 < b) (hl : ∀ d ∈ l, d < a) :
    change b a (change a b l) = l := by
  have hzeros : ∀ d ∈ l.takeWhile (· = 0), decide (d = 0) := fun d hd => decide_eq_true (zeros l d hd)
  have hback : (digits a (ofDigits a (l.dropWhile (· = 0)).reverse)).reverse = l.dropWhile (· = 0) := by
    rw [← strip_eq ha fun d hd => hl d ((dropWhile_sublist _).mem (mem_reverse.mp hd)), strip,
      reverse_reverse, dropWhile_idempotent]
  generalize hn : ofDigits a (l.dropWhile (· = 0)).reverse = n at hback
  -- the digits of a number do not start with a zero
  have hdrop : (digits b n).reverse.dropWhile (· = 0) = (digits b n).reverse := by
    have h := strip_eq hb fun d hd => digits_lt_base (m := n) hb hd
    rwa [ofDigits_digits] at h
  have htake : (digits b n).reverse.takeWhile (· = 0) = [] := by
    have h := takeWhile_append_dropWhile (p := (· = 0)) (l := (digits b n).reverse)
    rw [hdrop] at h
    exact append_cancel_right h
  rw [change, change, hn, takeWhile_append_of_pos hzeros, dropWhile_append_of_pos hzeros, htake,
    hdrop, reverse_reverse, ofDigits_digits, hback, append_nil, takeWhile_append_dropWhile]

end FloweeHub.Lib.Radix
