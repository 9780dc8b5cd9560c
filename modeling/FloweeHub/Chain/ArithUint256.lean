import FloweeHub.Chain.Pow
import FloweeHub.Lib.Limbs
import Mathlib.Data.Nat.Bitwise

/-! The unsigned integers of `arith_uint256`, as loops over eight limbs of 32 bits, the compact form
of a target and the work it stands for. All are shown to be those of numbers below `2 ^ 256`. Text
and floating point are left out. -/

namespace FloweeHub

open Lib Limbs Nat Option Bool Prod

/-- The limbs of `base_uint`, the lowest one first. -/
structure BaseUint (WIDTH : ℕ) where
  pn : List (BitVec 32)
  length_pn : pn.length = WIDTH
deriving DecidableEq

abbrev ArithUint256 := BaseUint 8

namespace BaseUint

variable {WIDTH : ℕ}

def value (a : BaseUint WIDTH) : ℕ := Limbs.value a.pn

def ofUint64 (b : BitVec 64) : BaseUint (WIDTH + 2) where
  pn := b.setWidth 32 :: (b >>> 32).setWidth 32 :: List.replicate WIDTH 0#32
  length_pn := by simp

def ofNat (n : ℕ) : BaseUint WIDTH := ⟨Limbs.ofNat 32 WIDTH n, Limbs.length_ofNat ..⟩

instance : Complement (BaseUint WIDTH) := ⟨fun a => ⟨Limbs.complement a.pn, by simp [a.length_pn]⟩⟩

instance : Neg (BaseUint WIDTH) := ⟨fun a => ⟨negate a.pn, by simp [a.length_pn]⟩⟩

instance : Add (BaseUint WIDTH) :=
  ⟨fun a b => ⟨add a.pn b.pn, by rw [length_add (a.length_pn.trans b.length_pn.symm), a.length_pn]⟩⟩

instance : Sub (BaseUint WIDTH) :=
  ⟨fun a b => ⟨sub a.pn b.pn, by rw [length_sub (a.length_pn.trans b.length_pn.symm), a.length_pn]⟩⟩

/-- `operator*=(uint32_t)`. -/
instance : HMul (BaseUint WIDTH) (BitVec 32) (BaseUint WIDTH) :=
  ⟨fun a b32 => ⟨mulWord a.pn b32, by simp [a.length_pn]⟩⟩

instance : Mul (BaseUint WIDTH) :=
  ⟨fun a b => ⟨mul a.pn b.pn, by rw [length_mul (a.length_pn.trans b.length_pn.symm), a.length_pn]⟩⟩

instance : HShiftLeft (BaseUint WIDTH) ℕ (BaseUint WIDTH) :=
  ⟨fun a shift => ⟨shiftLeft a.pn shift, by simp [a.length_pn]⟩⟩

instance : HShiftRight (BaseUint WIDTH) ℕ (BaseUint WIDTH) :=
  ⟨fun a shift => ⟨shiftRight a.pn shift, by simp [a.length_pn]⟩⟩

theorem length_divide {a b : BaseUint WIDTH} {q : List (BitVec 32)}
    (h : Limbs.divide a.pn b.pn = some q) :
    q.length = WIDTH := by
  have hlen := a.length_pn.trans b.length_pn.symm
  by_cases hb : Limbs.value b.pn = 0
  · simp [Limbs.divide_zero hb] at h
  · obtain ⟨q', hq, hlength, -⟩ := Limbs.divide_spec (by decide) hlen hb
    cases h.symm.trans hq
    exact hlength.trans a.length_pn

def div (a b : BaseUint WIDTH) : Except String (BaseUint WIDTH) :=
  match h : divide a.pn b.pn with
  | some q => .ok ⟨q, length_divide h⟩
  | none => .error "Division by zero"

def CompareTo (a b : BaseUint WIDTH) : Ordering := Limbs.compare a.pn b.pn

def EqualTo (a : BaseUint WIDTH) (b : BitVec 64) : Bool :=
  (a.pn.drop 2).all (· = 0) && a.pn.getD 1 0 = (b >>> 32).setWidth 32 && a.pn.getD 0 0 = b.setWidth 32

def bits (a : BaseUint WIDTH) : ℕ := Limbs.bits a.pn

def GetLow64 (a : BaseUint WIDTH) : BitVec 64 :=
  (a.pn.getD 0 0).setWidth 64 ||| (a.pn.getD 1 0).setWidth 64 <<< 32

variable (a b : BaseUint WIDTH)

theorem value_lt : a.value < 2 ^ (32 * WIDTH) := by
  have h := Limbs.value_lt a.pn
  rwa [a.length_pn] at h

@[simp] theorem value_ofNat (n : ℕ) : (ofNat n : BaseUint WIDTH).value = n % 2 ^ (32 * WIDTH) :=
  Limbs.value_ofNat ..

@[simp] theorem value_complement : (~~~a).value = 2 ^ (32 * WIDTH) - 1 - a.value := by
  have h := Limbs.value_complement a.pn
  rw [a.length_pn] at h
  change Limbs.value (Limbs.complement a.pn) = _ - Limbs.value a.pn
  omega

@[simp] theorem value_neg : (-a).value = (2 ^ (32 * WIDTH) - a.value) % 2 ^ (32 * WIDTH) := by
  have h := Limbs.value_negate a.pn
  rwa [a.length_pn] at h

@[simp] theorem value_add : (a + b).value = (a.value + b.value) % 2 ^ (32 * WIDTH) := by
  have h := Limbs.value_add (a.length_pn.trans b.length_pn.symm)
  rwa [a.length_pn] at h

theorem value_sub (h : b.value ≤ a.value) : (a - b).value = a.value - b.value :=
  Limbs.value_sub (a.length_pn.trans b.length_pn.symm) h

@[simp] theorem value_mulWord (b32 : BitVec 32) :
    (a * b32).value = a.value * b32.toNat % 2 ^ (32 * WIDTH) := by
  have h := Limbs.value_mulWord a.pn b32
  rwa [a.length_pn] at h

@[simp] theorem value_mul : (a * b).value = a.value * b.value % 2 ^ (32 * WIDTH) := by
  have h := Limbs.value_mul (a.length_pn.trans b.length_pn.symm)
  rwa [a.length_pn] at h

@[simp] theorem value_shiftLeft (shift : ℕ) :
    (a <<< shift).value = a.value * 2 ^ shift % 2 ^ (32 * WIDTH) := by
  have h := Limbs.value_shiftLeft (by decide) a.pn shift
  rwa [a.length_pn] at h

@[simp] theorem value_shiftRight (shift : ℕ) : (a >>> shift).value = a.value / 2 ^ shift :=
  Limbs.value_shiftRight (by decide) a.pn shift

theorem div_zero (h : b.value = 0) : a.div b = .error "Division by zero" := by
  rw [div]
  split
  · next q hq => simp [Limbs.divide_zero h] at hq
  · rfl

/-- Division by a number that is not zero. -/
theorem div_spec (h : b.value ≠ 0) : ∃ q, a.div b = .ok q ∧ q.value = a.value / b.value := by
  obtain ⟨q, hq, -, hval⟩ := Limbs.divide_spec (by decide) (a.length_pn.trans b.length_pn.symm) h
  rw [div]
  split
  · next q' hq' =>
    cases hq.symm.trans hq'
    exact ⟨_, rfl, hval⟩
  · next hnone => exact absurd (hq.symm.trans hnone) (by simp)

theorem CompareTo_eq : a.CompareTo b = compare a.value b.value :=
  Limbs.compare_eq (a.length_pn.trans b.length_pn.symm)

@[simp] theorem bits_eq : a.bits = a.value.size := Limbs.bits_eq a.pn

@[simp] theorem value_ofUint64 (b : BitVec 64) : (ofUint64 b : BaseUint (WIDTH + 2)).value =
      b.toNat := by
  simp [value, ofUint64, Limbs.value_replicate, shiftRight_eq_div_pow]
  omega

theorem exists_limbs (a : BaseUint (WIDTH + 2)) : ∃ x y l, a.pn = x :: y :: l ∧
    a.value = x.toNat + 2 ^ 32 * (y.toNat + 2 ^ 32 * Limbs.value l) := by
  obtain ⟨pn, hlen⟩ := a
  match pn, hlen with
  | x :: y :: l, _ => exact ⟨x, y, l, rfl, by simp [value]⟩

theorem toNat_GetLow64 (a : BaseUint (WIDTH + 2)) : a.GetLow64.toNat = a.value % 2 ^ 64 := by
  obtain ⟨x, y, l, hpn, hval⟩ := exists_limbs a
  have hx := x.isLt
  have hor := two_pow_add_eq_or_of_lt hx y.toNat
  have hfit : x.toNat % 2 ^ 64 = x.toNat := mod_eq_of_lt (by omega)
  have hfit' : y.toNat % 2 ^ 64 * 2 ^ 32 % 2 ^ 64 = 2 ^ 32 * y.toNat := by omega
  rw [GetLow64, hpn, hval, BitVec.toNat_or, BitVec.toNat_shiftLeft, shiftLeft_eq]
  simp only [List.getD_cons_zero, List.getD_cons_succ, BitVec.toNat_setWidth, hfit, hfit']
  rw [Nat.or_comm, ← hor]
  omega

theorem EqualTo_zero_iff (a : BaseUint (WIDTH + 2)) : a.EqualTo 0 ↔ a.value = 0 := by
  obtain ⟨x, y, l, hpn, hval⟩ := exists_limbs a
  have hx : x.toNat = 0 ↔ x = 0#32 := by simp [BitVec.toNat_eq]
  have hy : y.toNat = 0 ↔ y = 0#32 := by simp [BitVec.toNat_eq]
  simp [EqualTo, hpn, hval, hx, hy, value_eq_zero_iff]
  tauto

end BaseUint

namespace ArithUint256

variable {x n : ℕ} {v : BitVec 32}

/-! ### The compact form -/

/-- The value of a compact number, and whether it is negative or does not fit. -/
def SetCompact (nCompact : BitVec 32) : ArithUint256 × Bool × Bool :=
  let nSize := (nCompact >>> 24).toNat
  let nWord := if nSize ≤ 3 then (nCompact &&& 0x007fffff) >>> (8 * (3 - nSize))
    else nCompact &&& 0x007fffff
  let value : ArithUint256 :=
    if nSize ≤ 3 then .ofUint64 (nWord.setWidth 64)
    else (.ofUint64 (nWord.setWidth 64) : ArithUint256) <<< (8 * (nSize - 3))
  (value, decide (nWord ≠ 0 ∧ nCompact &&& 0x00800000 ≠ 0),
    decide (nWord ≠ 0 ∧ (34 < nSize ∨ 0xff < nWord ∧ 33 < nSize ∨ 0xffff < nWord ∧ 32 < nSize)))

/-- The compact form of a number; there is none when an assert fails. -/
def GetCompact (a : ArithUint256) (fNegative : Bool := false) : Option (BitVec 32) :=
  let nSize := (a.bits + 7) / 8
  let nCompact : BitVec 32 :=
    if nSize ≤ 3 then (a.GetLow64 <<< (8 * (3 - nSize))).setWidth 32
    else (a >>> (8 * (nSize - 3))).GetLow64.setWidth 32
  let (nCompact, nSize) := if nCompact &&& 0x00800000 ≠ 0 then (nCompact >>> 8, nSize + 1)
    else (nCompact, nSize)
  if nCompact &&& ~~~0x007fffff ≠ 0 ∨ 256 ≤ nSize then none
  else
    let nCompact := nCompact ||| .ofNat 32 (nSize <<< 24)
    some (nCompact ||| if fNegative ∧ nCompact &&& 0x007fffff ≠ 0 then 0x00800000 else 0)

/-- The bytes of a number with a bit to spare for the sign. -/
def byteSize (x : ℕ) : ℕ := ((2 * x).size + 7) / 8

def mantissa (x : ℕ) : ℕ := x * 256 ^ 3 / 256 ^ byteSize x

/-- A number without the bytes below the mantissa. -/
def rounded (x : ℕ) : ℕ := x - x % 256 ^ (byteSize x - 3)

theorem lt_pow_bytes (x : ℕ) : x < 256 ^ ((x.size + 7) / 8) := by
  rw [show 256 = 2 ^ 8 by rfl, ← pow_mul]
  exact (Nat.lt_size_self _).trans_le (Nat.pow_le_pow_right (by decide) (by omega))

theorem pow_bytes_le (h : 0 < (x.size + 7) / 8) : 256 ^ ((x.size + 7) / 8 - 1) ≤ x := by
  rw [show 256 = 2 ^ 8 by rfl, ← pow_mul]
  exact lt_size.mp (by omega)

theorem two_mul_lt (x : ℕ) : 2 * x < 256 ^ byteSize x := lt_pow_bytes _

theorem pow_le_two_mul (h : 0 < byteSize x) : 256 ^ (byteSize x - 1) ≤ 2 * x := pow_bytes_le h

theorem byteSize_eq (hlt : 2 * x < 256 ^ n) (hle : 0 < n → 256 ^ (n - 1) ≤ 2 * x) : byteSize x = n := by
  rw [show 256 = 2 ^ 8 by rfl, ← pow_mul] at hlt hle
  have hhigh := Nat.size_le.mpr hlt
  obtain rfl | hn := Nat.eq_zero_or_pos n
  · rw [byteSize]
    omega
  · have hlow := lt_size.mpr (hle hn)
    rw [byteSize]
    omega

theorem mantissa_lt (x : ℕ) : mantissa x < 2 ^ 23 := by
  have h := two_mul_lt x
  rw [mantissa, div_lt_iff_lt_mul (by positivity)]
  omega

/-- Above three bytes the lower bytes are left out. -/
theorem bytes_of_lt (h : 3 < n) : x * 256 ^ 3 / 256 ^ n = x / 256 ^ (n - 3) := by
  rw [show n = n - 3 + 3 by omega, pow_add, Nat.mul_div_mul_right _ _ (by decide), Nat.add_sub_cancel]

theorem bytes_of_le (h : n ≤ 3) : x * 256 ^ 3 / 256 ^ n = x * 256 ^ (3 - n) := by
  rw [show 256 ^ 3 = 256 ^ (3 - n) * 256 ^ n by rw [← pow_add, Nat.sub_add_cancel h], ← Nat.mul_assoc,
    Nat.mul_div_cancel _ (by positivity)]

theorem rounded_of_le (h : byteSize x ≤ 3) : rounded x = x := by
  rw [rounded, show byteSize x - 3 = 0 by omega, pow_zero, Nat.mod_one, Nat.sub_zero]

theorem rounded_le (x : ℕ) : rounded x ≤ x := Nat.sub_le ..

theorem rounded_eq (x : ℕ) : rounded x = x / 256 ^ (byteSize x - 3) * 256 ^ (byteSize x - 3) := by
  have h := div_add_mod x (256 ^ (byteSize x - 3))
  rw [rounded, mul_comm]
  omega

theorem pow_le_rounded (h : 0 < byteSize x) : 256 ^ (byteSize x - 1) ≤ 2 * rounded x := by
  have hle := pow_le_two_mul h
  obtain hsm | hlg := le_or_gt (byteSize x) 3
  · rwa [rounded_of_le hsm]
  · rw [show byteSize x - 1 = 2 + (byteSize x - 3) by omega, pow_add] at hle ⊢
    rw [rounded_eq]
    have hquot : 128 * 256 ≤ x / 256 ^ (byteSize x - 3) := by
      rw [le_div_iff_mul_le (by positivity)]
      omega
    nlinarith [pow_pos (n := byteSize x - 3) (show 0 < 256 by decide)]

theorem byteSize_rounded (x : ℕ) : byteSize (rounded x) = byteSize x :=
  byteSize_eq (by have := two_mul_lt x; have := rounded_le x; omega) pow_le_rounded

theorem mantissa_rounded (x : ℕ) : mantissa (rounded x) = mantissa x := by
  obtain hsm | hlg := le_or_gt (byteSize x) 3
  · rw [rounded_of_le hsm]
  · rw [mantissa, mantissa, byteSize_rounded, bytes_of_lt hlg, bytes_of_lt hlg, rounded_eq,
      Nat.mul_div_cancel _ (by positivity)]

theorem rounded_mono {y : ℕ} (h : x ≤ y) : rounded x ≤ rounded y := by
  have hsize : byteSize x ≤ byteSize y := by
    have := size_le_size (mul_le_mul_left 2 h)
    rw [byteSize, byteSize]
    omega
  obtain heq | hlt := hsize.eq_or_lt
  · rw [rounded_eq, rounded_eq, heq]
    exact Nat.mul_le_mul_right _ (Nat.div_le_div_right h)
  · have hx := two_mul_lt x
    have hpow := Nat.pow_le_pow_right (show 0 < 256 by decide) (Nat.le_pred_of_lt hlt)
    have hy := pow_le_rounded (show 0 < byteSize y by omega)
    have hle := rounded_le x
    rw [pred_eq_sub_one] at hpow
    omega

/-- The limbs compute the compact values that the chain works with. -/
theorem SetCompact_eq (nCompact : BitVec 32) :
    ((SetCompact nCompact).1.value, (SetCompact nCompact).2) = FloweeHub.SetCompact nCompact.toNat := by
  have hsize : (nCompact >>> 24).toNat = nCompact.toNat >>> 24 := BitVec.toNat_ushiftRight ..
  have hword : ∀ x : BitVec 32, (BaseUint.ofUint64 (x.setWidth 64) : ArithUint256).value = x.toNat := by
    intro x
    rw [BaseUint.value_ofUint64, BitVec.toNat_setWidth, mod_eq_of_lt (by omega)]
  simp only [SetCompact, FloweeHub.SetCompact, hsize]
  split_ifs with h
  · simp only [hword, ne_eq, BitVec.toNat_eq, BitVec.lt_def, BitVec.toNat_ushiftRight, BitVec.toNat_and]
    rfl
  · simp only [BaseUint.value_shiftLeft, hword, ne_eq, BitVec.toNat_eq, BitVec.lt_def,
      BitVec.toNat_and, shiftLeft_eq]
    rfl

/-- The word that is read from the limbs before the sign bit is looked at. -/
theorem toNat_word {a : ArithUint256} (h : a.value < 256 ^ n) :
    (if n ≤ 3 then (a.GetLow64 <<< (8 * (3 - n))).setWidth 32
      else (a >>> (8 * (n - 3))).GetLow64.setWidth 32 : BitVec 32).toNat =
        a.value * 256 ^ 3 / 256 ^ n := by
  have hlt : a.value * 256 ^ 3 / 256 ^ n < 2 ^ 24 := by
    rw [div_lt_iff_lt_mul (by positivity)]
    omega
  split_ifs with hn
  · have hle := Nat.le_mul_of_pos_right a.value (Nat.two_pow_pos (8 * (3 - n)))
    rw [bytes_of_le hn, show 256 = 2 ^ 8 by rfl, ← pow_mul] at hlt ⊢
    rw [BitVec.toNat_setWidth, BitVec.toNat_shiftLeft, BaseUint.toNat_GetLow64, Nat.shiftLeft_eq,
      mod_eq_of_lt (show a.value < 2 ^ 64 by omega), mod_eq_of_lt (show _ < 2 ^ 64 by omega),
      mod_eq_of_lt (by omega)]
  · rw [bytes_of_lt (by omega), show 256 = 2 ^ 8 by rfl, ← pow_mul] at hlt ⊢
    rw [BitVec.toNat_setWidth, BaseUint.toNat_GetLow64, BaseUint.value_shiftRight,
      mod_eq_of_lt (show _ < 2 ^ 64 by omega), mod_eq_of_lt (by omega)]

theorem and_sign_ne_zero (h : v.toNat < 2 ^ 24) : v &&& 0x00800000 ≠ 0 ↔ 2 ^ 23 ≤ v.toNat := by
  rw [ne_eq, BitVec.toNat_eq, BitVec.toNat_and]
  change ¬ v.toNat &&& 2 ^ 23 = 0 ↔ _
  rw [and_two_pow, testBit_eq_decide_div_mod_eq]
  simp
  omega

theorem toNat_packed (hv : v.toNat < 2 ^ 23) (hn : n < 256) :
    v &&& ~~~0x007fffff = 0 ∧ (v ||| .ofNat 32 (n <<< 24)).toNat = 2 ^ 24 * n + v.toNat := by
  constructor
  · have hself : v &&& 0x007fffff = v := by
      apply BitVec.eq_of_toNat_eq
      exact and_two_pow_sub_one_of_lt_two_pow hv
    rw [← hself, BitVec.and_assoc, BitVec.and_not_self]
    exact BitVec.and_zero
  · rw [BitVec.toNat_or, BitVec.toNat_ofNat, Nat.shiftLeft_eq, Nat.mod_eq_of_lt (by omega),
      Nat.or_comm, Nat.mul_comm, ← Nat.two_pow_add_eq_or_of_lt (by omega)]

/-- The asserts pass, and the compact form is the size and the mantissa. -/
theorem GetCompact_spec (a : ArithUint256) : ∃ c, GetCompact a = some c ∧
    c.toNat = 2 ^ 24 * byteSize a.value + mantissa a.value := by
  have hlt := lt_pow_bytes a.value
  have hle := pow_bytes_le (x := a.value)
  have hn : (a.value.size + 7) / 8 ≤ 32 := by
    have : a.value.size ≤ 256 := size_le.mpr a.value_lt
    omega
  have hword := toNat_word hlt
  simp only [GetCompact, BaseUint.bits_eq]
  generalize (a.value.size + 7) / 8 = n at *
  generalize (if n ≤ 3 then (a.GetLow64 <<< (8 * (3 - n))).setWidth 32
      else (a >>> (8 * (n - 3))).GetLow64.setWidth 32 : BitVec 32) = v at *
  have hv : v.toNat < 2 ^ 24 := by
    rw [hword, div_lt_iff_lt_mul (by positivity)]
    omega
  -- the sign bit is set exactly when the number leaves no bit to spare
  obtain ⟨v', n', hpick, hn', hsize, hmantissa⟩ : ∃ v' n',
      (if v &&& 0x00800000 ≠ 0 then (v >>> 8, n + 1) else (v, n)) = (v', n') ∧ n' ≤ n + 1 ∧
        byteSize a.value = n' ∧ mantissa a.value = v'.toNat := by
    by_cases hsign : 2 ^ 23 ≤ v.toNat
    · have hsize : byteSize a.value = n + 1 := by
        refine byteSize_eq (by rw [pow_succ]; omega) fun _ => ?_
        rw [hword, Nat.le_div_iff_mul_le (by positivity)] at hsign
        rw [Nat.add_sub_cancel]
        omega
      refine ⟨_, _, if_pos ((and_sign_ne_zero hv).mpr hsign), le_rfl, hsize, ?_⟩
      rw [mantissa, hsize, pow_succ 256 n, ← Nat.div_div_eq_div_mul, ← hword, BitVec.toNat_ushiftRight,
        Nat.shiftRight_eq_div_pow]
    · have hsize : byteSize a.value = n := by
        refine byteSize_eq ?_ fun hpos => (hle hpos).trans (by omega)
        rw [hword, le_div_iff_mul_le (by positivity)] at hsign
        omega
      exact ⟨_, _, if_neg (mt (and_sign_ne_zero hv).mp hsign), n.le_succ, hsize,
        by rw [mantissa, hsize, ← hword]⟩
  obtain ⟨hmask, hpack⟩ := toNat_packed (n := n') (hmantissa ▸ mantissa_lt a.value) (by omega)
  rw [hpick]
  refine ⟨_, if_neg (by rw [hmask]; simp; omega), ?_⟩
  rw [if_neg (by simp), hsize, hmantissa, ← hpack]
  exact congrArg _ (BitVec.or_zero ..)

theorem overflow_iff {c : ℕ} :
    (FloweeHub.SetCompact c).2.2 = true ↔ 2 ^ 256 * 256 ^ 3 ≤ c % 2 ^ 23 * 256 ^ (c / 2 ^ 24) := by
  have hword : c &&& 0x7fffff = c % 2 ^ 23 := Nat.and_two_pow_sub_one_eq_mod c 23
  simp only [FloweeHub.SetCompact, hword, Nat.shiftRight_eq_div_pow, decide_eq_true_eq]
  have hm := Nat.mod_lt c (Nat.two_pow_pos 23)
  generalize c % 2 ^ 23 = m at *
  generalize c / 2 ^ 24 = n at *
  obtain hsm | rfl | rfl | hlg : n ≤ 32 ∨ n = 33 ∨ n = 34 ∨ 35 ≤ n := by omega
  · have hpow := Nat.mul_le_mul_left m (Nat.pow_le_pow_right (show 0 < 256 by decide) hsm)
    constructor
    · rintro ⟨-, h⟩
      omega
    · intro h
      omega
  · simp
    omega
  · simp
    omega
  · have hpow := Nat.pow_le_pow_right (show 0 < 256 by decide) hlg
    rw [if_neg (by omega)]
    constructor
    · rintro ⟨hne, -⟩
      exact le_trans (by omega) (Nat.le_mul_of_pos_left _ (Nat.pos_of_ne_zero hne))
    · intro h
      refine ⟨fun hzero => ?_, .inl (by omega)⟩
      rw [hzero, zero_mul] at h
      omega

/-- Expanding a compact form gives the number without the bytes below the mantissa. -/
theorem SetCompact_compact (hx : x < 2 ^ 256) :
    FloweeHub.SetCompact (2 ^ 24 * byteSize x + mantissa x) = (rounded x, false, false) := by
  have hm := mantissa_lt x
  have hsize : (2 ^ 24 * byteSize x + mantissa x) / 2 ^ 24 = byteSize x := by omega
  have hword : (2 ^ 24 * byteSize x + mantissa x) % 2 ^ 23 = mantissa x := by omega
  have hover := overflow_iff (c := 2 ^ 24 * byteSize x + mantissa x)
  have hle := rounded_le x
  refine Prod.ext ?_ (Prod.ext ?_ ?_)
  · simp only [FloweeHub.SetCompact, shiftRight_eq_div_pow, shiftLeft_eq, hsize,
      show (0x7fffff : ℕ) = 2 ^ 23 - 1 by rfl, and_two_pow_sub_one_eq_mod, hword, pow_mul]
    split_ifs with hn
    · rw [mantissa, bytes_of_le hn, rounded_of_le hn,
        show (2 : ℕ) ^ 8 = 256 by rfl, Nat.mul_div_cancel _ (by positivity)]
    · rw [mantissa, bytes_of_lt (by omega),
        show (2 : ℕ) ^ 8 = 256 by rfl, ← rounded_eq, Nat.mod_eq_of_lt (by omega)]
  · have hsign : 2 ^ 24 * byteSize x + mantissa x &&& 0x800000 = 0 := by
      change _ &&& 2 ^ 23 = 0
      rw [and_two_pow, testBit_eq_decide_div_mod_eq]
      simp
      omega
    simp only [FloweeHub.SetCompact, hsign]
    simp
  · rw [eq_false_iff, ne_eq, hover, hsize, hword]
    have := div_mul_le_self (x * 256 ^ 3) (256 ^ byteSize x)
    rw [← mantissa] at this
    omega

def GetBlockProof (nBits : BitVec 32) : Except String ArithUint256 := do
  let (bnTarget, fNegative, fOverflow) := SetCompact nBits
  if fNegative || fOverflow || bnTarget.EqualTo 0 then return .ofUint64 0
  let quotient ← (~~~bnTarget).div (bnTarget + .ofUint64 1)
  return quotient + .ofUint64 1

/-- The compact form of a positive number that fits. -/
def ValidTarget (nBits : BitVec 32) : Prop :=
  (SetCompact nBits).2.1 = false ∧ (SetCompact nBits).2.2 = false ∧ (SetCompact nBits).1.value ≠ 0

theorem target_lt (nBits : BitVec 32) : (SetCompact nBits).1.value + 1 < 2 ^ 256 := by
  have hval := congrArg fst (SetCompact_eq nBits)
  have hword : nBits.toNat &&& 0x7fffff = nBits.toNat % 2 ^ 23 := and_two_pow_sub_one_eq_mod _ 23
  simp only [FloweeHub.SetCompact, hword] at hval
  rw [hval]
  split_ifs with hn
  · have := shiftRight_le (nBits.toNat % 2 ^ 23) (8 * (3 - nBits.toNat >>> 24))
    omega
  · -- a number that was shifted to the left is even
    obtain ⟨k, hk⟩ : ∃ k, 8 * (nBits.toNat >>> 24 - 3) = k + 1 :=
      ⟨8 * (nBits.toNat >>> 24 - 3) - 1, by omega⟩
    rw [hk, shiftLeft_eq, pow_succ 2 k, ← mul_assoc]
    omega

/-- The number of hashes that the target stands for. -/
theorem GetBlockProof_spec {nBits : BitVec 32} (h : ValidTarget nBits) :
    ∃ work, GetBlockProof nBits = .ok work ∧
      work.value = 2 ^ 256 / ((SetCompact nBits).1.value + 1) := by
  obtain ⟨hneg, hover, hzero⟩ := h
  have hlt := target_lt nBits
  have hne : (SetCompact nBits).1.EqualTo 0 = false :=
    eq_false_iff.mpr (mt (BaseUint.EqualTo_zero_iff _).mp hzero)
  have hone : (BaseUint.ofUint64 1 : ArithUint256).value = 1 := BaseUint.value_ofUint64 1
  have hnext : ((SetCompact nBits).1 + .ofUint64 1).value = (SetCompact nBits).1.value + 1 := by
    rw [BaseUint.value_add, hone, mod_eq_of_lt hlt]
  obtain ⟨q, hq, hval⟩ :=
    BaseUint.div_spec (~~~(SetCompact nBits).1) ((SetCompact nBits).1 + .ofUint64 1) (by omega)
  refine ⟨q + .ofUint64 1, ?_, ?_⟩
  · simp only [GetBlockProof, hneg, hover, hne, Bool.or_self, Bool.false_eq_true, if_false, hq]
    rfl
  · have hspl : 2 ^ 256 / ((SetCompact nBits).1.value + 1) = q.value + 1 := by
      rw [hval, hnext, BaseUint.value_complement, ← add_div_right _ (succ_pos _)]
      congr 1
      omega
    have hhalf : 2 ^ 256 / ((SetCompact nBits).1.value + 1) ≤ 2 ^ 256 / 2 :=
      div_le_div_left (by omega) (by decide)
    rw [BaseUint.value_add, hone, hspl]
    exact mod_eq_of_lt (by rw [← hspl]; omega)

/-- The operators are those modulo `2 ^ 256`; the compact form keeps the mantissa. -/
structure Exact : Prop where
  mul : ∀ a b : ArithUint256, (a * b).value = a.value * b.value % 2 ^ 256
  mulWord : ∀ (a : ArithUint256) (b32 : BitVec 32), (a * b32).value = a.value * b32.toNat % 2 ^ 256
  div : ∀ a b : ArithUint256, b.value ≠ 0 → ∃ q, a.div b = .ok q ∧ q.value = a.value / b.value
  div_zero : ∀ a b : ArithUint256, b.value = 0 → a.div b = .error "Division by zero"
  shiftLeft : ∀ (a : ArithUint256) (shift : ℕ), (a <<< shift).value = a.value * 2 ^ shift % 2 ^ 256
  shiftRight : ∀ (a : ArithUint256) (shift : ℕ), (a >>> shift).value = a.value / 2 ^ shift
  neg : ∀ a : ArithUint256, (-a).value = (2 ^ 256 - a.value) % 2 ^ 256
  bits : ∀ a : ArithUint256, a.value < 2 ^ a.bits ∧
    (a.value ≠ 0 → 0 < a.bits ∧ 2 ^ (a.bits - 1) ≤ a.value)
  compact : ∀ a : ArithUint256, ∃ c, GetCompact a = some c ∧
    (SetCompact c).1.value = a.value - a.value % 256 ^ (c.toNat / 2 ^ 24 - 3) ∧
      GetCompact (SetCompact c).1 = some c
  compact_mono : ∀ a b : ArithUint256, a.value ≤ b.value → ∀ c d, GetCompact a = some c →
    GetCompact b = some d → (SetCompact c).1.value ≤ (SetCompact d).1.value
  overflow : ∀ c : BitVec 32,
    (SetCompact c).2.2 = true ↔ 2 ^ 256 * 256 ^ 3 ≤ c.toNat % 2 ^ 23 * 256 ^ (c.toNat / 2 ^ 24)
  work : ∀ nBits, ValidTarget nBits →
    ∃ work, GetBlockProof nBits = .ok work ∧ work.value = 2 ^ 256 / ((SetCompact nBits).1.value + 1)
  work_anti : ∀ nBits nBits', ValidTarget nBits → ValidTarget nBits' →
    (SetCompact nBits).1.value ≤ (SetCompact nBits').1.value →
    ∀ work work', GetBlockProof nBits = .ok work → GetBlockProof nBits' = .ok work' →
      work'.value ≤ work.value

theorem value_SetCompact_of_compact {a : ArithUint256} {c : BitVec 32} (h : GetCompact a = some c) :
    (SetCompact c).1.value = rounded a.value ∧ c.toNat / 2 ^ 24 = byteSize a.value := by
  obtain ⟨c', hc', hval⟩ := GetCompact_spec a
  cases h.symm.trans hc'
  have hm := mantissa_lt a.value
  refine ⟨?_, by omega⟩
  have heq := SetCompact_eq c
  rw [hval, SetCompact_compact a.value_lt] at heq
  exact congrArg fst heq

/-- The operations are those on numbers, modulo `2 ^ 256`. -/
theorem arith_exact : Exact where
  mul a b := BaseUint.value_mul a b
  mulWord a b32 := BaseUint.value_mulWord a b32
  div a b h := BaseUint.div_spec a b h
  div_zero a b h := BaseUint.div_zero a b h
  shiftLeft a shift := BaseUint.value_shiftLeft a shift
  shiftRight a shift := BaseUint.value_shiftRight a shift
  neg a := BaseUint.value_neg a
  bits a := by
    rw [BaseUint.bits_eq]
    refine ⟨lt_size_self _, fun hne => ?_⟩
    have hpos : 0 < a.value.size := size_pos.mpr (pos_of_ne_zero hne)
    exact ⟨hpos, lt_size.mp (by omega)⟩
  compact a := by
    obtain ⟨c, hc, hval⟩ := GetCompact_spec a
    obtain ⟨hrounded, hsize⟩ := value_SetCompact_of_compact hc
    refine ⟨c, hc, by rw [hrounded, hsize, rounded], ?_⟩
    obtain ⟨c', hc', hval'⟩ := GetCompact_spec (SetCompact c).1
    rw [hrounded, byteSize_rounded, mantissa_rounded, ← hval] at hval'
    rw [hc', BitVec.eq_of_toNat_eq hval']
  compact_mono a b hle c d hc hd := by
    rw [(value_SetCompact_of_compact hc).1, (value_SetCompact_of_compact hd).1]
    exact rounded_mono hle
  overflow c := by
    have heq := congrArg (fun p => p.2.2) (SetCompact_eq c)
    rw [heq, overflow_iff]
  work nBits h := GetBlockProof_spec h
  work_anti nBits nBits' h h' hle work work' hwork hwork' := by
    obtain ⟨p, hp, hval⟩ := GetBlockProof_spec h
    obtain ⟨p', hp', hval'⟩ := GetBlockProof_spec h'
    cases hwork.symm.trans hp
    cases hwork'.symm.trans hp'
    rw [hval, hval']
    exact div_le_div_left (by omega) (succ_pos _)

end ArithUint256

end FloweeHub
