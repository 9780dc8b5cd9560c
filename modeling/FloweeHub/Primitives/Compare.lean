import FloweeHub.Primitives.Transaction

/-! The order of hashes. `Compare` looks at the bytes from the last to the first, which is the
order of the hashes as numbers. -/

namespace FloweeHub

open Lib LittleEndian List UInt8

/-- The loop of `base_blob::Compare` over the bytes from the last one on. -/
def compareBytes : Bytes → Bytes → Ordering
  | a :: as, b :: bs => if b < a then .gt else if a < b then .lt else compareBytes as bs
  | _, _ => .eq

theorem compareBytes_append {as bs : Bytes} (h : as.length = bs.length) (a b : UInt8) :
    compareBytes (as ++ [a]) (bs ++ [b]) = (compareBytes as bs).then (compare a.toNat b.toNat) := by
  induction as generalizing bs with
  | nil =>
    obtain rfl := length_eq_zero_iff.mp h.symm
    simp only [nil_append, compareBytes, Ordering.then]
    rcases lt_trichotomy a.toNat b.toNat with hlt | heq | hgt
    · have hab : a < b := lt_iff_toNat_lt.mpr hlt
      have hba : ¬ b < a := fun hc => absurd (lt_iff_toNat_lt.mp hc) (by omega)
      rw [if_neg hba, if_pos hab, compare_lt_iff_lt.mpr hlt]
    · have hab : ¬ a < b := fun hc => absurd (lt_iff_toNat_lt.mp hc) (by omega)
      have hba : ¬ b < a := fun hc => absurd (lt_iff_toNat_lt.mp hc) (by omega)
      rw [if_neg hba, if_neg hab, compare_eq_iff_eq.mpr heq]
    · have hba : b < a := lt_iff_toNat_lt.mpr hgt
      rw [if_pos hba, compare_gt_iff_gt.mpr hgt]
  | cons x as ih =>
    cases bs with
    | nil => simp at h
    | cons y bs =>
      simp only [cons_append, compareBytes, ih (by simpa using h)]
      split_ifs <;> rfl

theorem compare_div_mod (x y : ℕ) :
    compare x y = (compare (x / 256) (y / 256)).then (compare (x % 256) (y % 256)) := by
  rcases lt_trichotomy (x / 256) (y / 256) with h | h | h
  · rw [compare_lt_iff_lt.mpr h, compare_lt_iff_lt.mpr (by omega)]
    rfl
  · rw [compare_eq_iff_eq.mpr h]
    simp only [Ordering.then]
    rcases lt_trichotomy (x % 256) (y % 256) with h' | h' | h'
    · rw [compare_lt_iff_lt.mpr h', compare_lt_iff_lt.mpr (by omega)]
    · rw [compare_eq_iff_eq.mpr h', compare_eq_iff_eq.mpr (by omega)]
    · rw [compare_gt_iff_gt.mpr h', compare_gt_iff_gt.mpr (by omega)]
  · rw [compare_gt_iff_gt.mpr h, compare_gt_iff_gt.mpr (by omega)]
    rfl

theorem compareBytes_encode (width x y : ℕ) (hx : x < 256 ^ width) (hy : y < 256 ^ width) :
    compareBytes (encode width x).reverse (encode width y).reverse = compare x y := by
  induction width generalizing x y with
  | zero =>
    obtain rfl : x = y := by omega
    rw [compare_eq_iff_eq.mpr rfl]
    rfl
  | succ width ih =>
    have hb : ∀ n : ℕ, (ofNat (n % 256)).toNat = n % 256 := fun n => by rw [toNat_ofNat']; omega
    rw [encode, encode, reverse_cons, reverse_cons,
      compareBytes_append (by simp), hb, hb, ih _ _ (by omega) (by omega), ← compare_div_mod]

theorem getD_encode {width i : ℕ} (h : i < width) (n : ℕ) :
    ((encode width n).getD i 0).toNat = n / 256 ^ i % 256 := by
  induction width generalizing i n with
  | zero => omega
  | succ width ih =>
    cases i with
    | zero =>
      simp only [encode, getD_cons_zero, pow_zero, Nat.div_one]
      rw [toNat_ofNat']
      omega
    | succ i =>
      rw [encode, getD_cons_succ, ih (by omega), Nat.div_div_eq_div_mul, Nat.pow_succ, Nat.mul_comm 256]

namespace Uint256

def Compare (x y : Uint256) : Ordering := compareBytes x.toBytes.reverse y.toBytes.reverse

theorem Compare_eq (x y : Uint256) : x.Compare y = compare x.toNat y.toNat :=
  compareBytes_encode 32 _ _ (lt_of_lt_of_eq x.isLt (by decide)) (lt_of_lt_of_eq y.isLt (by decide))

def lastByte (x : Uint256) : ℕ := (x.toBytes.getD 31 0).toNat

theorem lastByte_eq (x : Uint256) : x.lastByte = x.toNat / 2 ^ 248 := by
  have hpow : (256 : ℕ) ^ 31 = 2 ^ 248 := by norm_num
  rw [lastByte, toBytes, getD_encode (by decide), hpow]
  exact Nat.mod_eq_of_lt (by omega)

theorem lastByte_lt (x : Uint256) : x.lastByte < 256 := toNat_lt _

theorem lastByte_mono {x y : Uint256} (h : x.toNat ≤ y.toNat) : x.lastByte ≤ y.lastByte := by
  rw [lastByte_eq, lastByte_eq]
  exact Nat.div_le_div_right h

end Uint256

end FloweeHub
