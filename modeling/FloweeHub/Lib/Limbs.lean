import Mathlib.Data.Nat.Digits.Lemmas
import Mathlib.Data.Nat.Size

/-! Unsigned numbers in machine words, the lowest word first, and the loops that add, multiply,
shift, compare and divide them. -/

namespace FloweeHub.Lib.Limbs

open List Nat

variable {w : ℕ} {xs ys : List (BitVec w)} {pn : List (BitVec w)} {j d r : ℕ} {i : ℕ} {α : Type*}

def value (xs : List (BitVec w)) : ℕ := ofDigits (2 ^ w) (xs.map BitVec.toNat)

@[simp] theorem value_nil : value ([] : List (BitVec w)) = 0 := rfl

@[simp] theorem value_cons (x : BitVec w) (xs : List (BitVec w)) :
    value (x :: xs) = x.toNat + 2 ^ w * value xs := by
  simp [value, ofDigits_cons]

theorem value_append (xs ys : List (BitVec w)) :
    value (xs ++ ys) = value xs + 2 ^ (w * xs.length) * value ys := by
  simp [value, ofDigits_append, pow_mul]

theorem value_replicate (n : ℕ) : value (replicate n 0#w) = 0 := by
  induction n with
  | zero => rfl
  | succ n ih => simp [replicate_succ, ih]

theorem pow_length_cons (x : α) (l : List α) :
    2 ^ (w * (x :: l).length) = 2 ^ w * 2 ^ (w * l.length) := by
  rw [length_cons, mul_succ, add_comm, pow_add]

theorem value_lt (xs : List (BitVec w)) : value xs < 2 ^ (w * xs.length) := by
  induction xs with
  | nil => simp
  | cons x xs ih =>
    have hx := x.isLt
    rw [value_cons, pow_length_cons]
    nlinarith

theorem value_split {n : ℕ} (h : n ≤ xs.length) :
    value (xs.take n) < 2 ^ (w * n) ∧
      value xs = value (xs.take n) + 2 ^ (w * n) * value (xs.drop n) := by
  have hlt := value_lt (xs.take n)
  have hspl := value_append (xs.take n) (xs.drop n)
  rw [length_take_of_le h] at hlt hspl
  rw [take_append_drop] at hspl
  exact ⟨hlt, hspl⟩

theorem testBit_value (hw : 0 < w) (xs : List (BitVec w)) (i : ℕ) :
    (value xs).testBit i = (xs.getD (i / w) 0).getLsbD (i % w) := by
  induction xs generalizing i with
  | nil => simp
  | cons x xs ih =>
    rw [value_cons, add_comm, testBit_two_pow_mul_add _ x.isLt]
    by_cases hi : i < w
    · simp [hi, div_eq_of_lt hi, mod_eq_of_lt hi, BitVec.testBit_toNat]
    · have hdiv : i / w = (i - w) / w + 1 := by rw [div_eq_sub_div hw (by omega)]
      have hmod : i % w = (i - w) % w := mod_eq_sub_mod (by omega)
      rw [if_neg hi, ih, hdiv, hmod, getD_cons_succ]

theorem testBit_value_of_le (h : w * xs.length ≤ i) : (value xs).testBit i = false :=
  Nat.testBit_lt_two_pow ((value_lt xs).trans_le (Nat.pow_le_pow_right (by decide) h))

def ofNat (w : ℕ) : ℕ → ℕ → List (BitVec w)
  | 0, _ => []
  | n + 1, v => .ofNat w v :: ofNat w n (v / 2 ^ w)

@[simp] theorem length_ofNat (n v : ℕ) : (ofNat w n v).length = n := by
  induction n generalizing v with
  | zero => rfl
  | succ n ih => simp [ofNat, ih]

theorem value_ofNat (n v : ℕ) : value (ofNat w n v) = v % 2 ^ (w * n) := by
  induction n generalizing v with
  | zero => simp [ofNat, mod_one]
  | succ n ih =>
    rw [ofNat, value_cons, ih, BitVec.toNat_ofNat, mul_succ, add_comm (w * n), pow_add, mod_mul]

/-! ### Columns with a carry -/

/-- Every column adds the carry to its sum, keeps the low half and passes on the high half. -/
def carry (w : ℕ) : ℕ → List ℕ → List (BitVec w)
  | _, [] => []
  | c, s :: ss =>
    let n := (c + s) % 2 ^ (2 * w)
    .ofNat w n :: carry w (n / 2 ^ w) ss

@[simp] theorem length_carry (c : ℕ) (ss : List ℕ) : (carry w c ss).length = ss.length := by
  induction ss generalizing c with
  | nil => rfl
  | cons s ss ih => simp [carry, ih]

/-- With room for the carry in the register nothing is lost but the last carry. -/
theorem value_carry {c : ℕ} {ss : List ℕ} (hc : c < 2 ^ w) (h : ∀ s ∈ ss, s + 2 ^ w ≤ 2 ^ (2 * w)) :
    value (carry w c ss) = (c + ofDigits (2 ^ w) ss) % 2 ^ (w * ss.length) := by
  induction ss generalizing c with
  | nil => simp [carry, mod_one]
  | cons s ss ih =>
    obtain ⟨hs, h⟩ := forall_mem_cons.mp h
    have hn : (c + s) % 2 ^ (2 * w) = c + s := mod_eq_of_lt (by omega)
    have hnext : (c + s) / 2 ^ w < 2 ^ w := by
      rw [Nat.div_lt_iff_lt_mul (Nat.two_pow_pos w), ← pow_add, ← Nat.two_mul]
      omega
    simp only [carry, value_cons, Nat.ofDigits_cons, hn, BitVec.toNat_ofNat, ih hnext h]
    rw [pow_length_cons, ← Nat.add_assoc, Nat.mod_mul, Nat.add_mul_mod_self_left,
      Nat.add_mul_div_left _ _ (Nat.two_pow_pos w)]

def add (xs ys : List (BitVec w)) : List (BitVec w) :=
  carry w 0 (zipWith (fun x y => x.toNat + y.toNat) xs ys)

theorem forall_mem_zipWith {β γ : Type*} {f : α → β → γ} {P : γ → Prop} {as : List α} {bs : List β}
    (h : ∀ a b, P (f a b)) : ∀ c ∈ zipWith f as bs, P c := by
  intro c hc
  rw [← map_uncurry_zip_eq_zipWith] at hc
  obtain ⟨⟨a, b⟩, -, rfl⟩ := mem_map.mp hc
  exact h a b

theorem length_add (h : xs.length = ys.length) : (add xs ys).length = xs.length := by simp [add, h]

theorem value_add (h : xs.length = ys.length) :
    value (add xs ys) = (value xs + value ys) % 2 ^ (w * xs.length) := by
  have hroom : ∀ s ∈ zipWith (fun x y => x.toNat + y.toNat) xs ys, s + 2 ^ w ≤ 2 ^ (2 * w) := by
    refine forall_mem_zipWith fun x y => ?_
    have hx := x.isLt
    have hy := y.isLt
    rw [Nat.two_mul, pow_add]
    obtain hone | htwo : 2 ^ w = 1 ∨ 2 ≤ 2 ^ w := by have := Nat.two_pow_pos w; omega
    · simp only [hone] at hx hy ⊢
      omega
    · nlinarith
  rw [add, value_carry (Nat.two_pow_pos w) hroom, Nat.zero_add, length_zipWith, h, Nat.min_self,
    value, value, Nat.ofDigits_add_ofDigits_eq_ofDigits_zipWith_of_length_eq (by simpa using h),
    zipWith_map]

variable (xs)

def mulWord (b : BitVec w) : List (BitVec w) := carry w 0 (xs.map fun x => b.toNat * x.toNat)

@[simp] theorem length_mulWord (b : BitVec w) : (mulWord xs b).length = xs.length := by
  simp [mulWord]

theorem value_mulWord (b : BitVec w) :
    value (mulWord xs b) = value xs * b.toNat % 2 ^ (w * xs.length) := by
  have hroom : ∀ s ∈ xs.map fun x => b.toNat * x.toNat, s + 2 ^ w ≤ 2 ^ (2 * w) := by
    intro s hs
    obtain ⟨x, -, rfl⟩ := mem_map.mp hs
    rw [two_mul, pow_add]
    nlinarith [x.isLt, b.isLt]
  rw [mulWord, value_carry (Nat.two_pow_pos w) hroom, Nat.zero_add, length_map,
    Nat.mul_comm (value xs), value, Nat.mul_ofDigits, map_map]
  rfl

variable {xs} {n : ℕ}

/-- A row of the long multiplication: `x` times the second factor is added from word `j` on. -/
def mulRow (ys : List (BitVec w)) (pn : List (BitVec w)) (j : ℕ) (x : BitVec w) : List (BitVec w) :=
  pn.take j ++ carry w 0 (zipWith (fun p y => p.toNat + x.toNat * y.toNat) (pn.drop j) ys)

def mul (xs ys : List (BitVec w)) : List (BitVec w) :=
  (range xs.length).foldl (fun pn j => mulRow ys pn j (xs.getD j 0)) (replicate xs.length 0#w)

theorem ofDigits_row (x : BitVec w) {ps : List (BitVec w)} (h : ps.length ≤ ys.length) :
    ofDigits (2 ^ w) (zipWith (fun p y => p.toNat + x.toNat * y.toNat) ps ys) =
      value ps + x.toNat * value (ys.take ps.length) := by
  induction ps generalizing ys with
  | nil => simp
  | cons p ps ih =>
    obtain _ | ⟨y, ys⟩ := ys
    · simp at h
    · simp [ofDigits_cons, ih (by simpa using h)]
      ring

theorem value_take_mod (ys : List (BitVec w)) (h : n ≤ ys.length) :
    value (ys.take n) = value ys % 2 ^ (w * n) := by
  obtain ⟨hlt, hspl⟩ := value_split h
  rw [hspl, add_mul_mod_self_left, mod_eq_of_lt hlt]

theorem length_mulRow (h : pn.length = ys.length) (j : ℕ) (x : BitVec w) :
    (mulRow ys pn j x).length = pn.length := by
  simp [mulRow]
  omega

theorem value_mulRow (h : pn.length = ys.length) (hj : j < pn.length) (x : BitVec w) :
    value (mulRow ys pn j x) = (value pn + 2 ^ (w * j) * (x.toNat * value ys)) % 2
      ^ (w * pn.length) := by
  have hroom : ∀ s ∈ zipWith (fun p y => p.toNat + x.toNat * y.toNat) (pn.drop j) ys, s + 2 ^ w ≤
      2 ^ (2 * w) := by
    refine forall_mem_zipWith fun p y => ?_
    rw [two_mul, pow_add]
    nlinarith [p.isLt, y.isLt, x.isLt]
  obtain ⟨hlt, hspl⟩ := value_split hj.le
  have hpow : 2 ^ (w * pn.length) = 2 ^ (w * j) * 2 ^ (w * (pn.length - j)) := by
    rw [← pow_add, ← Nat.mul_add, Nat.add_sub_cancel' hj.le]
  have hsum : value (pn.take j) + 2 ^ (w * j) * value (pn.drop j) +
      2 ^ (w * j) * (x.toNat * value ys) =
      value (pn.take j) + 2 ^ (w * j) * (value (pn.drop j) + x.toNat * value ys) := by ring
  rw [mulRow, value_append, length_take_of_le hj.le, value_carry (Nat.two_pow_pos w) hroom,
    ofDigits_row x (by rw [length_drop]; omega), Nat.zero_add, length_zipWith, length_drop,
    Nat.min_eq_left (by omega), value_take_mod ys (by omega), hpow, hspl, hsum, Nat.mod_mul,
    Nat.add_mul_mod_self_left, Nat.mod_eq_of_lt hlt, Nat.add_mul_div_left _ _ (Nat.two_pow_pos _),
    Nat.div_eq_of_lt hlt, zero_add, add_mod, mul_mod_mod, ← add_mod]

variable (h : xs.length = ys.length)

include h

theorem mul_rows {m : ℕ} (hm : m ≤ xs.length) :
    ((range m).foldl (fun pn j => mulRow ys pn j (xs.getD j 0)) (replicate xs.length 0#w)).length =
      xs.length ∧
      value ((range m).foldl (fun pn j => mulRow ys pn j (xs.getD j 0)) (replicate xs.length 0#w)) =
        value (xs.take m) * value ys % 2 ^ (w * xs.length) := by
  induction m with
  | zero => simp [value_replicate]
  | succ m ih =>
    obtain ⟨hlen, hval⟩ := ih (by omega)
    rw [range_succ, foldl_append, foldl_cons, foldl_nil]
    refine ⟨(length_mulRow (hlen.trans h) ..).trans hlen, ?_⟩
    have htake : value (xs.take (m + 1)) = value (xs.take m) + 2 ^ (w * m) * (xs.getD m 0).toNat := by
      rw [take_add_one, value_append, length_take_of_le (by omega), getElem?_eq_getElem hm,
        getD_eq_getElem?_getD, getElem?_eq_getElem hm]
      simp
    rw [value_mulRow (hlen.trans h) (by omega), hlen, hval, htake, mod_add_mod]
    congr 1
    ring

theorem length_mul : (mul xs ys).length = xs.length := (mul_rows h le_rfl).1

theorem value_mul : value (mul xs ys) = value xs * value ys % 2 ^ (w * xs.length) := by
  rw [mul, (mul_rows h le_rfl).2, take_length]

omit h

variable (xs)

def complement : List (BitVec w) := xs.map (~~~ ·)

@[simp] theorem length_complement : (complement xs).length = xs.length := by simp [complement]

theorem value_complement : value (complement xs) + value xs + 1 = 2 ^ (w * xs.length) := by
  induction xs with
  | nil => simp [complement]
  | cons x xs ih =>
    rw [complement] at ih
    rw [pow_length_cons, ← ih, complement, map_cons, value_cons, value_cons, BitVec.toNat_not]
    have hspl : 2 ^ w * (value (xs.map (~~~ ·)) + value xs + 1) =
        2 ^ w * value (xs.map (~~~ ·)) + 2 ^ w * value xs + 2 ^ w := by ring
    omega

variable {xs}

/-- A word that becomes zero makes the loop go on with the next one. -/
def increment : List (BitVec w) → List (BitVec w)
  | [] => []
  | x :: xs => if x + 1 = 0 ∧ xs ≠ [] then (x + 1) :: increment xs else (x + 1) :: xs

variable (xs)

@[simp] theorem length_increment : (increment xs).length = xs.length := by
  induction xs with
  | nil => rfl
  | cons x xs ih => rw [increment]; split_ifs <;> simp [ih]

theorem value_increment : value (increment xs) = (value xs + 1) % 2 ^ (w * xs.length) := by
  induction xs with
  | nil => simp [increment]
  | cons x xs ih =>
    have hx := x.isLt
    have hxs := value_lt xs
    have hone : (x + 1).toNat = (x.toNat + 1) % 2 ^ w := by
      rw [BitVec.toNat_add, show (1 : BitVec w).toNat = 1 % 2 ^ w from BitVec.toNat_ofNat ..,
        add_mod_mod]
    rw [pow_length_cons, mod_mul, value_cons]
    have hlow : (x.toNat + 2 ^ w * value xs + 1) % 2 ^ w = (x.toNat + 1) % 2 ^ w := by
      rw [add_right_comm, add_mul_mod_self_left]
    have hhigh : (x.toNat + 2 ^ w * value xs + 1) / 2 ^ w = (x.toNat + 1) / 2 ^ w + value xs := by
      rw [Nat.add_right_comm, Nat.add_mul_div_left _ _ (Nat.two_pow_pos w)]
    rw [hlow, hhigh, increment]
    by_cases hzero : x + 1 = 0
    · have hmod : (x.toNat + 1) % 2 ^ w = 0 := by rw [← hone, hzero]; rfl
      have hall : x.toNat + 1 = 2 ^ w := by
        have := dvd_of_mod_eq_zero hmod
        exact Nat.le_antisymm (by omega) (Nat.le_of_dvd (by omega) this)
      rw [hall, Nat.div_self (Nat.two_pow_pos w), Nat.add_comm 1]
      by_cases hnil : xs = []
      · simp [hnil, hmod]
      · rw [if_pos ⟨hzero, hnil⟩, value_cons, hzero, ih, mod_self]
        rfl
    · have hlt : x.toNat + 1 < 2 ^ w := by
        refine lt_of_le_of_ne hx fun hall => hzero (BitVec.eq_of_toNat_eq ?_)
        rw [hone, hall, mod_self]
        rfl
      rw [if_neg fun h => hzero h.1, value_cons, hone, div_eq_of_lt hlt, zero_add, mod_eq_of_lt hxs]

def negate : List (BitVec w) := increment (complement xs)

@[simp] theorem length_negate : (negate xs).length = xs.length := by simp [negate]

theorem value_negate : value (negate xs) = (2 ^ (w * xs.length) - value xs) % 2 ^ (w * xs.length) := by
  have h := value_complement xs
  rw [negate, value_increment, length_complement]
  congr 1
  omega

variable {xs}

def sub (xs ys : List (BitVec w)) : List (BitVec w) := add xs (negate ys)

theorem length_sub (h : xs.length = ys.length) : (sub xs ys).length = xs.length :=
  length_add (by simpa using h)

theorem value_sub (h : xs.length = ys.length) (hle : value ys ≤ value xs) :
    value (sub xs ys) = value xs - value ys := by
  have hx := value_lt xs
  rw [sub, value_add (by simpa using h), value_negate, ← h, add_mod_mod,
    show value xs + (2 ^ (w * xs.length) - value ys) = value xs - value ys + 2 ^ (w * xs.length)
      by omega,
    add_mod_right, mod_eq_of_lt (by omega)]

def orAt (pn : List (BitVec w)) (i : ℕ) (x : BitVec w) : List (BitVec w) := pn.modify i (· ||| x)

/-- Words that are added to cleared ones at their positions. -/
def scatter (n : ℕ) (parts : List (ℕ × BitVec w)) : List (BitVec w) :=
  parts.foldl (fun pn part => orAt pn part.1 part.2) (replicate n 0#w)

@[simp] theorem length_orAt (pn : List (BitVec w)) (i : ℕ) (x : BitVec w) :
    (orAt pn i x).length = pn.length := by
  simp [orAt]

theorem getLsbD_orAt (hj : j < pn.length) (i : ℕ) (x : BitVec w) (b : ℕ) :
    ((orAt pn i x).getD j 0).getLsbD b =
      ((pn.getD j 0).getLsbD b || decide (i = j) && x.getLsbD b) := by
  rw [orAt, getD_eq_getElem?_getD, getElem?_modify, getD_eq_getElem?_getD, getElem?_eq_getElem hj]
  by_cases h : i = j <;> simp [h]

theorem foldl_orAt (parts : List (ℕ × BitVec w)) (pn : List (BitVec w)) :
    (parts.foldl (fun pn part => orAt pn part.1 part.2) pn).length = pn.length ∧ ∀ j < pn.length, ∀ b,
      ((parts.foldl (fun pn part => orAt pn part.1 part.2) pn).getD j 0).getLsbD b =
        ((pn.getD j 0).getLsbD b || parts.any fun part =>
          decide (part.1 = j) && part.2.getLsbD b) := by
  induction parts generalizing pn with
  | nil => simp
  | cons part parts ih =>
    obtain ⟨hlen, hbits⟩ := ih (orAt pn part.1 part.2)
    rw [length_orAt] at hlen hbits
    refine ⟨hlen, fun j hj b => ?_⟩
    rw [foldl_cons, hbits j hj, getLsbD_orAt hj, any_cons, Bool.or_assoc]

@[simp] theorem length_scatter (n : ℕ) (parts : List (ℕ × BitVec w)) : (scatter n parts).length = n :=
  (foldl_orAt ..).1.trans length_replicate

theorem getLsbD_scatter (parts : List (ℕ × BitVec w)) (hj : j < n) (b : ℕ) :
    ((scatter n parts).getD j 0).getLsbD b = parts.any fun part =>
      decide (part.1 = j) && part.2.getLsbD b := by
  have hzero : (replicate n 0#w).getD j 0 = 0#w := by simp [getD_eq_getElem?_getD, hj]
  rw [scatter, (foldl_orAt ..).2 j (by simpa using hj), hzero]
  simp

variable (xs)

def shiftLeft (shift : ℕ) : List (BitVec w) :=
  let k := shift / w
  let s := shift % w
  scatter xs.length <| (range xs.length).flatMap fun i =>
    (if i + k + 1 < xs.length ∧ s ≠ 0 then [(i + k + 1, xs.getD i 0 >>> (w - s))] else []) ++
      if i + k < xs.length then [(i + k, xs.getD i 0 <<< s)] else []

def shiftRight (shift : ℕ) : List (BitVec w) :=
  let k := shift / w
  let s := shift % w
  scatter xs.length <| (range xs.length).flatMap fun i =>
    (if k + 1 ≤ i ∧ s ≠ 0 then [(i - k - 1, xs.getD i 0 <<< (w - s))] else []) ++
      if k ≤ i then [(i - k, xs.getD i 0 >>> s)] else []

@[simp] theorem length_shiftLeft (shift : ℕ) : (shiftLeft xs shift).length = xs.length :=
  length_scatter ..

@[simp] theorem length_shiftRight (shift : ℕ) : (shiftRight xs shift).length = xs.length :=
  length_scatter ..

theorem any_ite (c : Prop) [Decidable c] (x : α) (p : α → Bool) :
    (if c then [x] else []).any p = (decide c && p x) := by
  by_cases h : c <;> simp [h]

theorem getLsbD_split {p : ℕ} (hr : r < w) (hp : p = w * d + r) :
    (xs.getD (p / w) 0).getLsbD (p % w) = (xs.getD d 0).getLsbD r := by
  rw [hp, mul_add_div (by omega), mul_add_mod, div_eq_of_lt hr, mod_eq_of_lt hr, add_zero]

variable {xs}

theorem split_inj {e t : ℕ} (hr : r < w) (ht : t < w) (h : w * d + r = w * e + t) : d = e ∧ r = t := by
  have hdiv := congrArg (· / w) h
  have hmod := congrArg (· % w) h
  simp only [mul_add_div (show 0 < w by omega), div_eq_of_lt, hr, ht, mul_add_mod, mod_eq_of_lt]
    at hdiv hmod
  exact ⟨hdiv, hmod⟩

theorem value_shiftLeft (hw : 0 < w) (xs : List (BitVec w)) (shift : ℕ) :
    value (shiftLeft xs shift) = value xs * 2 ^ shift % 2 ^ (w * xs.length) := by
  apply eq_of_testBit_eq
  intro i
  rw [testBit_mod_two_pow, testBit_mul_two_pow]
  by_cases hi : i < w * xs.length
  · have hj : i / w < xs.length := Nat.div_lt_of_lt_mul hi
    have hb := Nat.mod_lt i hw
    have hs := Nat.mod_lt shift hw
    have hisplit := div_add_mod i w
    have hssplit := div_add_mod shift w
    rw [testBit_value hw, shiftLeft, getLsbD_scatter _ hj, testBit_value hw]
    generalize i / w = j at *
    generalize i % w = b at *
    generalize shift / w = k at *
    generalize shift % w = s at *
    subst hisplit hssplit
    rw [Bool.eq_iff_iff]
    simp only [any_flatMap, any_append, any_ite, any_eq_true, mem_range, Bool.or_eq_true,
      Bool.and_eq_true, decide_eq_true_eq, BitVec.getLsbD_shiftLeft, BitVec.getLsbD_ushiftRight, hi,
      hb, true_and]
    constructor
    · rintro ⟨x, -, ⟨-, rfl, hbit⟩ | ⟨-, rfl, hlow, hbit⟩⟩
      · have hlow := BitVec.lt_of_getLsbD hbit
        have hspl : w * (x + k + 1) = w * x + w * k + w := by ring
        rw [getLsbD_split xs hlow (d := x) (by omega)]
        exact ⟨by omega, hbit⟩
      · have hlow : s ≤ b := by simpa using hlow
        have hspl : w * (x + k) = w * x + w * k := by ring
        rw [getLsbD_split xs (show b - s < w by omega) (d := x) (by omega)]
        exact ⟨by omega, hbit⟩
    · rintro ⟨hle, hbit⟩
      have hr := mod_lt (w * j + b - (w * k + s)) hw
      have hp := div_add_mod (w * j + b - (w * k + s)) w
      generalize (w * j + b - (w * k + s)) / w = d at *
      generalize (w * j + b - (w * k + s)) % w = r at *
      by_cases hlow : r + s < w
      · obtain ⟨rfl, rfl⟩ := split_inj (d := j) (e := d + k) hb hlow (by rw [Nat.mul_add]; omega)
        exact ⟨d, by omega, .inr ⟨hj, rfl, by simp, by rwa [Nat.add_sub_cancel]⟩⟩
      · obtain ⟨rfl, rfl⟩ := split_inj (d := j) (e := d + k + 1) hb (show r + s - w < w by omega)
          (by rw [Nat.mul_succ, Nat.mul_add]; omega)
        exact ⟨d, by omega, .inl ⟨⟨hj, by omega⟩, rfl, by rwa [show w - s + (r + s - w) = r by omega]⟩⟩
  · rw [testBit_value_of_le (by simpa using hi)]
    simp [hi]

theorem value_shiftRight (hw : 0 < w) (xs : List (BitVec w)) (shift : ℕ) :
    value (shiftRight xs shift) = value xs / 2 ^ shift := by
  apply eq_of_testBit_eq
  intro i
  rw [testBit_div_two_pow]
  by_cases hi : i < w * xs.length
  · have hj : i / w < xs.length := Nat.div_lt_of_lt_mul hi
    have hb := Nat.mod_lt i hw
    have hs := Nat.mod_lt shift hw
    have hisplit := div_add_mod i w
    have hssplit := div_add_mod shift w
    rw [testBit_value hw, shiftRight, getLsbD_scatter _ hj, testBit_value hw]
    generalize i / w = j at *
    generalize i % w = b at *
    generalize shift / w = k at *
    generalize shift % w = s at *
    rw [Bool.eq_iff_iff]
    simp only [any_flatMap, any_append, any_ite, any_eq_true, mem_range, Bool.or_eq_true,
      Bool.and_eq_true, decide_eq_true_eq, BitVec.getLsbD_shiftLeft, BitVec.getLsbD_ushiftRight, hb,
      true_and]
    have hrg : ∀ {x c : ℕ}, (xs.getD x 0).getLsbD c → x < xs.length := by
      intro x c h
      by_contra hx
      simp [getElem?_eq_none (Nat.le_of_not_lt hx)] at h
    by_cases hlow : b < w - s
    · have hspl : w * (j + k) = w * j + w * k := by ring
      rw [getLsbD_split xs (show s + b < w by omega) (d := j + k) (by omega)]
      constructor
      · rintro ⟨x, -, ⟨-, -, hbit, -⟩ | ⟨hle, hx, hbit⟩⟩
        · simp [hlow] at hbit
        · obtain rfl : x = j + k := by omega
          exact hbit
      · intro hbit
        exact ⟨j + k, hrg hbit, .inr ⟨by omega, by omega, hbit⟩⟩
    · have hspl : w * (j + k + 1) = w * j + w * k + w := by ring
      rw [getLsbD_split xs (show b - (w - s) < w by omega) (d := j + k + 1) (by omega)]
      constructor
      · rintro ⟨x, -, ⟨⟨hle, -⟩, hx, -, hbit⟩ | ⟨-, -, hbit⟩⟩
        · obtain rfl : x = j + k + 1 := by omega
          exact hbit
        · rw [BitVec.getLsbD_of_ge _ _ (by omega)] at hbit
          exact absurd hbit Bool.false_ne_true
      · intro hbit
        exact ⟨j + k + 1, hrg hbit, .inl ⟨⟨by omega, by omega⟩, by omega, by simp [hlow], hbit⟩⟩
  · rw [testBit_value_of_le (by simpa using hi), testBit_value_of_le (by omega)]

/-! ### Comparing and counting bits -/

def compare : List (BitVec w) → List (BitVec w) → Ordering
  | x :: xs, y :: ys => (compare xs ys).then (Ord.compare x.toNat y.toNat)
  | _, _ => .eq

theorem compare_eq (h : xs.length = ys.length) :
    compare xs ys = Ord.compare (value xs) (value ys) := by
  induction xs generalizing ys with
  | nil => obtain rfl := length_eq_zero_iff.mp h.symm; rfl
  | cons x xs ih =>
    obtain _ | ⟨y, ys⟩ := ys
    · simp at h
    · rw [compare, ih (by simpa using h), value_cons, value_cons]
      obtain hlt | heq | hgt := lt_trichotomy (value xs) (value ys)
      · have hmul := mul_le_mul_left (2 ^ w) hlt
        rw [Nat.mul_succ] at hmul
        rw [Nat.compare_eq_lt.mpr hlt]
        exact (Nat.compare_eq_lt.mpr (by omega)).symm
      · rw [heq, Nat.compare_eq_eq.mpr rfl, Ordering.eq_then]
        obtain h | h | h := Nat.lt_trichotomy x.toNat y.toNat
        · rw [Nat.compare_eq_lt.mpr h]
          exact (Nat.compare_eq_lt.mpr (by omega)).symm
        · rw [h, Nat.compare_eq_eq.mpr rfl, Nat.compare_eq_eq.mpr rfl]
        · rw [Nat.compare_eq_gt.mpr h]
          exact (Nat.compare_eq_gt.mpr (by omega)).symm
      · have hmul := Nat.mul_le_mul_left (2 ^ w) hgt
        rw [Nat.mul_succ] at hmul
        rw [Nat.compare_eq_gt.mpr hgt]
        exact (Nat.compare_eq_gt.mpr (by omega)).symm

/-- The bits of a word that is not zero; the lowest bit is not looked at. -/
def wordBits (x : BitVec w) : ℕ := findGreatest (fun b => x.getLsbD b) (w - 1) + 1

def bits (xs : List (BitVec w)) : ℕ :=
  let pos := findGreatest (fun pos => xs.getD pos 0 ≠ 0) (xs.length - 1)
  if xs.getD pos 0 = 0 then 0 else w * pos + wordBits (xs.getD pos 0)

theorem wordBits_eq {x : BitVec w} (hx : x ≠ 0) : wordBits x = x.toNat.size := by
  obtain ⟨i, hi⟩ := exists_testBit_of_ne_zero fun h : x.toNat = 0 => hx (BitVec.eq_of_toNat_eq h)
  have hspec := findGreatest_spec (P := fun b => x.getLsbD b = true)
    (le_pred_of_lt (BitVec.lt_of_getLsbD hi)) hi
  apply le_antisymm
  · exact lt_size.mpr (ge_two_pow_of_testBit (BitVec.testBit_toNat x ▸ hspec))
  · refine size_le.mpr (lt_pow_two_of_testBit _ fun j hj => ?_)
    by_contra hbit
    have hbit := Bool.not_eq_false _ ▸ hbit
    exact findGreatest_is_greatest hj (le_pred_of_lt (BitVec.lt_of_getLsbD hbit)) hbit

theorem value_eq_zero_iff : value xs = 0 ↔ ∀ x ∈ xs, x = 0#w := by
  induction xs with
  | nil => simp
  | cons x xs ih =>
    have hx : x.toNat = 0 ↔ x = 0#w := by simp [BitVec.toNat_eq]
    simp [ih, hx]

theorem size_mul_add {a v : ℕ} (hv : v ≠ 0) (hr : r < 2 ^ a) : (r + 2 ^ a * v).size = a + v.size := by
  apply le_antisymm
  · have h := mul_le_mul_left (2 ^ a) (lt_size_self v)
    rw [size_le, pow_add]
    rw [mul_succ] at h
    omega
  · obtain ⟨m, hm⟩ : ∃ m, v.size = m + 1 := exists_eq_succ_of_ne_zero (mt size_eq_zero.mp hv)
    have h := mul_le_mul_left (2 ^ a) (lt_size.mp (show m < v.size by omega))
    rw [hm, ← add_assoc, succ_le_iff, lt_size, pow_add]
    omega

theorem bits_eq (xs : List (BitVec w)) : bits xs = (value xs).size := by
  have habv : ∀ j, findGreatest (fun pos => xs.getD pos 0 ≠ 0) (xs.length - 1) < j →
      xs.getD j 0 = 0 := by
    intro j hj
    obtain hlt | hge := lt_or_ge j xs.length
    · exact not_not.mp (findGreatest_is_greatest hj (le_pred_of_lt hlt))
    · simp [getElem?_eq_none hge]
  have hspec : ∀ i, i < xs.length → xs.getD i 0 ≠ 0 →
      xs.getD (findGreatest (fun pos => xs.getD pos 0 ≠ 0) (xs.length - 1)) 0 ≠ 0 := fun i hi hne =>
    findGreatest_spec (P := fun pos => xs.getD pos 0 ≠ 0) (le_pred_of_lt hi) hne
  simp only [bits]
  generalize findGreatest (fun pos => xs.getD pos 0 ≠ 0) (xs.length - 1) = pos at *
  split_ifs with hzero
  · rw [value_eq_zero_iff.mpr fun x hx => ?_, size_zero]
    obtain ⟨i, hi, rfl⟩ := mem_iff_getElem.mp hx
    by_contra hne
    exact hspec i hi (by simpa [hi] using hne) hzero
  · have hpos : pos < xs.length := by
      by_contra h
      exact hzero (by simp [getElem?_eq_none (Nat.le_of_not_lt h)])
    have hspl : value xs = value (xs.take pos) + 2 ^ (w * pos) * (xs.getD pos 0).toNat := by
      have htail : value (xs.drop (pos + 1)) = 0 := value_eq_zero_iff.mpr fun x hx => by
        obtain ⟨i, hi, rfl⟩ := mem_iff_getElem.mp hx
        rw [length_drop] at hi
        have := habv (pos + 1 + i) (by omega)
        simpa [show pos + 1 + i < xs.length by omega] using this
      rw [(value_split hpos.le).2, drop_eq_getElem_cons hpos, value_cons, htail]
      simp [hpos]
    rw [hspl, size_mul_add (fun h => hzero (BitVec.eq_of_toNat_eq h)) (value_split hpos.le).1,
      wordBits_eq hzero]

/-- The loop over the bits of the quotient, from the highest on; `s` of them are left. -/
def divideFrom : ℕ → List (BitVec w) → List (BitVec w) → List (BitVec w) → List (BitVec w)
  | 0, _, _, quotient => quotient
  | s + 1, num, div, quotient =>
    if compare num div = .lt then divideFrom s num (shiftRight div 1) quotient
    else divideFrom s (sub num div) (shiftRight div 1) (orAt quotient (s / w) (1#w <<< (s % w)))

/-- Long division; there is no result for a division by zero. -/
def divide (xs ys : List (BitVec w)) : Option (List (BitVec w)) :=
  if bits ys = 0 then none
  else if bits xs < bits ys then some (replicate xs.length 0#w)
  else some (divideFrom (bits xs - bits ys + 1) xs (shiftLeft ys (bits xs - bits ys))
    (replicate xs.length 0#w))

theorem value_orAt (hw : 0 < w) (hi : i < w * pn.length) :
    value (orAt pn (i / w) (1#w <<< (i % w))) = value pn ||| 2 ^ i := by
  apply eq_of_testBit_eq
  intro t
  rw [testBit_or, testBit_two_pow]
  obtain ht | ht := lt_or_ge t (w * pn.length)
  · have hone : (1#w <<< (i % w)).getLsbD (t % w) = decide (i % w = t % w) := by
      have htw := mod_lt t hw
      rw [BitVec.getLsbD_shiftLeft, BitVec.getLsbD_one, Bool.eq_iff_iff]
      simp [hw, htw]
      omega
    have hsame : (i / w = t / w ∧ i % w = t % w) ↔ i = t := by
      refine ⟨fun h => ?_, fun h => h ▸ ⟨rfl, rfl⟩⟩
      rw [← Nat.div_add_mod i w, h.1, h.2, Nat.div_add_mod]
    rw [testBit_value hw, getLsbD_orAt (Nat.div_lt_of_lt_mul ht), testBit_value hw,
      hone, ← Bool.decide_and]
    simp only [hsame]
  · rw [testBit_value_of_le (by simpa using ht), testBit_value_of_le ht, Bool.false_or]
    simp [show i ≠ t by omega]

/-- The divisor stands `s - 1` bits to the left, and the quotient has only bits from `s` on. -/
theorem value_divideFrom (hw : 0 < w) (hd : 0 < d) {s : ℕ} (num div quotient : List (BitVec w))
    (hlen : div.length = num.length) (hlen' : quotient.length = num.length) (hs : s ≤ w * num.length)
    (hdiv : ∀ s', s = s' + 1 → value div = d * 2 ^ s') (hnum : value num < d * 2 ^ s)
    (hq : 2 ^ s ∣ value quotient) :
    (divideFrom s num div quotient).length = num.length ∧
      value (divideFrom s num div quotient) = value quotient + value num / d := by
  induction s generalizing num div quotient with
  | zero => exact ⟨hlen', by rw [divideFrom, div_eq_of_lt (by simpa using hnum), add_zero]⟩
  | succ s ih =>
    have hval := hdiv s rfl
    have hshf : ∀ s', s = s' + 1 → value (shiftRight div 1) = d * 2 ^ s' := by
      rintro s' rfl
      rw [value_shiftRight hw, hval, pow_one, pow_succ, ← Nat.mul_assoc,
        Nat.mul_div_cancel _ (by decide)]
    have hcompare : compare num div = .lt ↔ value num < d * 2 ^ s := by
      rw [compare_eq hlen.symm, hval, Nat.compare_eq_lt]
    simp only [divideFrom, hcompare]
    split_ifs with hlt
    · exact ih num _ quotient (by simpa using hlen) hlen' (by omega) hshf hlt
        ((pow_dvd_pow 2 (le_succ s)).trans hq)
    · have hle : value div ≤ value num := by omega
      have hsub := value_sub hlen.symm hle
      have hrest : value num = value (sub num div) + d * 2 ^ s := by omega
      have hset : value (orAt quotient (s / w) (1#w <<< (s % w))) = value quotient + 2 ^ s := by
        obtain ⟨a, ha⟩ := hq
        rw [value_orAt hw (by rw [hlen']; omega),
          ha, ← Nat.two_pow_add_eq_or_of_lt (Nat.pow_lt_pow_right (by decide) (Nat.lt_succ_self s))]
      obtain ⟨hlast, hlastvalue⟩ := ih (sub num div) (shiftRight div 1) (orAt quotient (s / w)
        (1#w <<< (s % w))) (by rw [length_shiftRight, hlen, length_sub hlen.symm])
        (by rw [length_orAt, hlen', length_sub hlen.symm]) (by rw [length_sub hlen.symm]; omega) hshf
        (by rw [pow_succ] at hnum; nlinarith)
        (hset ▸ (Nat.dvd_add_left (dvd_refl _)).mpr ((Nat.pow_dvd_pow 2 (Nat.le_succ s)).trans hq))
      refine ⟨hlast.trans (length_sub hlen.symm), ?_⟩
      rw [hlastvalue, hset, hrest, Nat.add_mul_div_left _ _ hd]
      omega

theorem divide_zero (h : value ys = 0) : divide xs ys = none := by
  rw [divide, if_pos (by rw [bits_eq, h, size_zero])]

/-- Long division, bit by bit, ends with the quotient. -/
theorem divide_spec (hw : 0 < w) (hlen : xs.length = ys.length) (h : value ys ≠ 0) :
    ∃ quotient, divide xs ys = some quotient ∧ quotient.length = xs.length ∧
      value quotient = value xs / value ys := by
  have hx := lt_size_self (value xs)
  rw [divide, bits_eq, bits_eq, if_neg (mt size_eq_zero.mp h)]
  split_ifs with hlt
  · refine ⟨_, rfl, length_replicate, (value_replicate _).trans (div_eq_of_lt ?_).symm⟩
    exact hx.trans_le (lt_size.mp hlt)
  · obtain ⟨m, hm⟩ : ∃ m, (value ys).size = m + 1 := exists_eq_succ_of_ne_zero (mt size_eq_zero.mp h)
    have hsize : (value xs).size ≤ w * xs.length := size_le.mpr (value_lt xs)
    generalize hs : (value xs).size - (value ys).size = s at *
    have hfit : value ys * 2 ^ s < 2 ^ (w * xs.length) := by
      refine lt_of_lt_of_le ?_ (Nat.pow_le_pow_right (by decide) hsize)
      rw [show (value xs).size = (value ys).size + s by omega, pow_add]
      exact Nat.mul_lt_mul_of_pos_right (Nat.lt_size_self _) (Nat.two_pow_pos s)
    have hshf : value (shiftLeft ys s) = value ys * 2 ^ s := by
      rw [value_shiftLeft hw, ← hlen, mod_eq_of_lt hfit]
    have hrest : value xs < value ys * 2 ^ (s + 1) := by
      have hlow := mul_le_mul_right (2 ^ (s + 1)) (lt_size.mp (show m < (value ys).size by omega))
      rw [← pow_add, show m + (s + 1) = (value xs).size by omega] at hlow
      omega
    obtain ⟨hlast, hval⟩ := value_divideFrom hw (pos_of_ne_zero h) (s := s + 1) xs
      (shiftLeft ys s) (replicate xs.length 0#w) (by rw [length_shiftLeft, hlen])
      length_replicate (by omega) (by rintro s' hs'; obtain rfl := succ.inj hs'; exact hshf) hrest
      (by rw [value_replicate]; exact dvd_zero _)
    exact ⟨_, rfl, hlast, by rw [hval, value_replicate, zero_add]⟩

end FloweeHub.Lib.Limbs
