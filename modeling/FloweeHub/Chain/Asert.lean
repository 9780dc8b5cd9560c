import FloweeHub.Chain.ArithUint256
import Mathlib.Algebra.Order.Field.Power
import Mathlib.Data.Rat.Floor

/-! The target of the ASERT algorithm: that of the anchor times a power of two whose exponent has
sixteen bits behind the point. The power for the fraction is approximated by a polynomial. The
result is exact up to that, goes up with time and down with height. -/

namespace FloweeHub

open Lib Wrap64 BaseUint Nat Option

/-- The sum of the polynomial, before it is shifted. -/
def asertPolynomial (frac : ℕ) : ℕ :=
  195766423245049 * frac + 971821376 * frac * frac + 5127 * frac * frac * frac + 2 ^ 47

/-- The last steps of `CalculateASERT`, for the shifted target. -/
def clampTarget (powLimit nextTarget : ArithUint256) : ArithUint256 :=
  if nextTarget.EqualTo 0 then .ofUint64 1
  else if nextTarget.CompareTo powLimit = .gt then powLimit
  else nextTarget

/-- `CalculateASERT`; there is no result when an assert fails. -/
def CalculateASERT (refTarget : ArithUint256) (nPowTargetSpacing nTimeDiff nHeightDiff : ℤ)
    (powLimit : ArithUint256) (nHalfLife : ℤ) : Option ArithUint256 :=
  if ¬ (refTarget.CompareTo (.ofUint64 0) = .gt ∧ refTarget.CompareTo powLimit ≠ .gt) then none
  else if ¬ (powLimit >>> 224).EqualTo 0 then none
  else if ¬ 0 ≤ nHeightDiff then none
  else if ¬ 0 < nHalfLife then none
  else if ¬ |sub nTimeDiff (wrap (nPowTargetSpacing * nHeightDiff))| < 2 ^ (63 - 16) then none
  else
    let exponent :=
      (wrap (sub nTimeDiff (wrap (nPowTargetSpacing * add nHeightDiff 1)) * 65536)).tdiv nHalfLife
    let shifts := exponent / 65536
    let frac := (exponent % 65536).toNat
    if ¬ exponent = add (wrap (shifts * 65536)) frac then none
    else
      let factor : BitVec 32 := .ofNat 32 (65536 + asertPolynomial frac % 2 ^ 64 / 2 ^ 48)
      let nextTarget := refTarget * factor
      let shifts := sub shifts 16
      if shifts ≤ 0 then some (clampTarget powLimit (nextTarget >>> (wrap (-shifts) % 2 ^ 32).toNat))
      else if 255 < add nextTarget.bits shifts then some powLimit
      else some (clampTarget powLimit (nextTarget <<< (shifts % 2 ^ 32).toNat))

/-- The exponent with sixteen bits behind the point, for a spacing of ten minutes. -/
def asertExponent (nHalfLife nTimeDiff nHeightDiff : ℤ) : ℤ :=
  ((nTimeDiff - 600 * (nHeightDiff + 1)) * 65536).tdiv nHalfLife

def asertFactor (frac : ℕ) : ℕ := 65536 + asertPolynomial frac / 2 ^ 48

/-- A target times the power of two that the exponent stands for, rounded down. -/
def scaledTarget (target : ℕ) (exponent : ℤ) : ℤ :=
  ⌊(target * asertFactor (exponent % 65536).toNat : ℚ) * 2 ^ (exponent / 65536 - 16)⌋

def asertTarget (powLimit target : ℕ) (exponent : ℤ) : ℤ :=
  min powLimit (max 1 (scaledTarget target exponent))

theorem asertPolynomial_mono {a b : ℕ} (h : a ≤ b) : asertPolynomial a ≤ asertPolynomial b := by
  unfold asertPolynomial
  gcongr

theorem asertFactor_mono {a b : ℕ} (h : a ≤ b) : asertFactor a ≤ asertFactor b :=
  Nat.add_le_add_left (Nat.div_le_div_right (asertPolynomial_mono h)) _

theorem le_asertFactor (frac : ℕ) : 65536 ≤ asertFactor frac := Nat.le_add_right ..

theorem asertFactor_le {frac : ℕ} (h : frac < 65536) : asertFactor frac ≤ 131072 :=
  (asertFactor_mono (le_pred_of_lt h)).trans (by decide)

theorem frac_lt (exponent : ℤ) : (exponent % 65536).toNat < 65536 := by omega

variable {a b exponent : ℤ} {target : ℕ}

/-- Where the fraction wraps the factor is at most twice the first one. -/
theorem power_mono (h : a ≤ b) : (asertFactor (a % 65536).toNat : ℚ) * 2 ^ (a / 65536 - 16) ≤
    asertFactor (b % 65536).toNat * 2 ^ (b / 65536 - 16) := by
  obtain heq | hlt : a / 65536 = b / 65536 ∨ a / 65536 + 1 ≤ b / 65536 := by omega
  · rw [heq]
    have hfactor := asertFactor_mono (show (a % 65536).toNat ≤ (b % 65536).toNat by omega)
    gcongr
  · have ha : (asertFactor (a % 65536).toNat : ℚ) ≤ 131072 := by
      exact_mod_cast asertFactor_le (frac_lt a)
    have hb : (65536 : ℚ) ≤ asertFactor (b % 65536).toNat := by exact_mod_cast le_asertFactor _
    calc (asertFactor (a % 65536).toNat : ℚ) * 2 ^ (a / 65536 - 16) ≤ 131072 * 2 ^ (a / 65536 - 16) := by gcongr
      _ = 65536 * 2 ^ (a / 65536 + 1 - 16) := by
        rw [show a / 65536 + 1 - 16 = a / 65536 - 16 + 1 by ring, zpow_add_one₀ two_ne_zero]
        ring
      _ ≤ asertFactor (b % 65536).toNat * 2 ^ (b / 65536 - 16) := by gcongr; norm_num

theorem asertTarget_mono (powLimit target : ℕ) (h : a ≤ b) :
    asertTarget powLimit target a ≤ asertTarget powLimit target b := by
  have hscaled : scaledTarget target a ≤ scaledTarget target b := by
    refine Int.floor_le_floor ?_
    rw [mul_assoc, mul_assoc]
    exact mul_le_mul_of_nonneg_left (power_mono h) (by positivity)
  unfold asertTarget
  gcongr

theorem asertExponent_mono {nHalfLife t t' h h' : ℤ} (hpos : 0 < nHalfLife) (ht : t ≤ t') (hh : h' ≤ h) :
    asertExponent nHalfLife t h ≤ asertExponent nHalfLife t' h' :=
  Int.tdiv_le_tdiv hpos (by omega)

theorem scaledTarget_of_le (h : exponent / 65536 ≤ 16) : scaledTarget target exponent =
      (target * asertFactor (exponent % 65536).toNat / 2 ^ (16 - exponent / 65536).toNat : ℕ) := by
  rw [scaledTarget, show exponent / 65536 - 16 = -((16 - exponent / 65536).toNat : ℤ)
    by omega, zpow_neg, zpow_natCast, ← div_eq_mul_inv]
  norm_cast

theorem scaledTarget_of_lt (h : 16 < exponent / 65536) : scaledTarget target exponent =
      (target * asertFactor (exponent % 65536).toNat * 2 ^ (exponent / 65536 - 16).toNat : ℕ) := by
  rw [scaledTarget, show exponent / 65536 - 16 = ((exponent / 65536 - 16).toNat : ℤ)
    by omega, zpow_natCast]
  exact_mod_cast Int.floor_natCast _

/-! ### What the algorithm computes -/

/-- Every exact intermediate result fits the type that holds it. -/
structure Lossless (target : ℕ) (nHalfLife nTimeDiff nHeightDiff : ℤ) : Prop where
  height : Wrap64.Fits (nHeightDiff + 1)
  scheduled : Wrap64.Fits (600 * nHeightDiff) ∧ Wrap64.Fits (600 * (nHeightDiff + 1))
  behind : Wrap64.Fits (nTimeDiff - 600 * nHeightDiff) ∧
    Wrap64.Fits (nTimeDiff - 600 * (nHeightDiff + 1))
  numerator : Wrap64.Fits ((nTimeDiff - 600 * (nHeightDiff + 1)) * 65536)
  exponent : Wrap64.Fits (asertExponent nHalfLife nTimeDiff nHeightDiff)
  polynomial : asertPolynomial (asertExponent nHalfLife nTimeDiff nHeightDiff % 65536).toNat < 2 ^ 64
  factor : asertFactor (asertExponent nHalfLife nTimeDiff nHeightDiff % 65536).toNat < 2 ^ 32
  product : target * asertFactor (asertExponent nHalfLife nTimeDiff nHeightDiff % 65536).toNat < 2 ^ 256
  shift : |asertExponent nHalfLife nTimeDiff nHeightDiff / 65536 - 16| < 2 ^ 32
  shifted : ∀ k, (target * asertFactor
    (asertExponent nHalfLife nTimeDiff nHeightDiff % 65536).toNat).size + k ≤ 255 →
    target * asertFactor (asertExponent nHalfLife nTimeDiff nHeightDiff % 65536).toNat * 2 ^ k < 2 ^ 256

variable {refTarget powLimit : ArithUint256} {nHalfLife nTimeDiff nHeightDiff : ℤ}

theorem natAbs_asertExponent_lt (hlife : 3600 ≤ nHalfLife) (ht : |nTimeDiff| < 2 ^ 32)
    (hh : 0 ≤ nHeightDiff) (hh' : nHeightDiff < 2 ^ 31) :
    (asertExponent nHalfLife nTimeDiff nHeightDiff).natAbs < 2 ^ 47 := by
  rw [asertExponent, Int.natAbs_tdiv]
  have hnum : ((nTimeDiff - 600 * (nHeightDiff + 1)) * 65536).natAbs < 2 ^ 57 := by
    rw [abs_lt] at ht
    omega
  exact lt_of_le_of_lt (Nat.div_le_div (Nat.le_of_lt hnum) (show 3600 ≤ nHalfLife.natAbs by omega)
    (by decide)) (by decide)

theorem mul_two_pow_lt {v k : ℕ} (h : v.size + k ≤ 255) : v * 2 ^ k < 2 ^ 256 :=
  calc v * 2 ^ k < 2 ^ v.size * 2 ^ k := Nat.mul_lt_mul_of_pos_right (Nat.lt_size_self v) (Nat.two_pow_pos k)
    _ = 2 ^ (v.size + k) := (pow_add ..).symm
    _ ≤ 2 ^ 256 := Nat.pow_le_pow_right (by decide) (by omega)

theorem lossless (target : ℕ) (htarget : target < 2 ^ 224) (hlife : 3600 ≤ nHalfLife)
    (ht : |nTimeDiff| < 2 ^ 32) (hh : 0 ≤ nHeightDiff) (hh' : nHeightDiff < 2 ^ 31) :
    Lossless target nHalfLife nTimeDiff nHeightDiff := by
  have hexp := natAbs_asertExponent_lt hlife ht hh hh'
  have hfactor := asertFactor_le (frac_lt (asertExponent nHalfLife nTimeDiff nHeightDiff))
  rw [abs_lt] at ht
  refine ⟨⟨?_, ?_⟩, ⟨⟨?_, ?_⟩, ⟨?_, ?_⟩⟩, ⟨⟨?_, ?_⟩, ⟨?_, ?_⟩⟩, ⟨?_, ?_⟩, ⟨?_, ?_⟩,
    (asertPolynomial_mono (le_pred_of_lt (frac_lt _))).trans_lt (by decide), ?_, ?_, ?_, fun _ =>
      mul_two_pow_lt⟩
  all_goals try omega
  · nlinarith
  · rw [abs_lt]
    omega

theorem value_clampTarget {nextTarget : ArithUint256} (hlim : 1 ≤ powLimit.value) :
    (clampTarget powLimit nextTarget).value = min powLimit.value (max 1 nextTarget.value) := by
  have hone : (ofUint64 1 : ArithUint256).value = 1 := value_ofUint64 1
  rw [clampTarget, BaseUint.CompareTo_eq]
  split_ifs with hzero hgt
  · rw [BaseUint.EqualTo_zero_iff] at hzero
    omega
  · rw [Nat.compare_eq_gt] at hgt
    omega
  · rw [BaseUint.EqualTo_zero_iff] at hzero
    rw [Nat.compare_eq_gt] at hgt
    omega

theorem CalculateASERT_eq (href : 1 ≤ refTarget.value) (hle : refTarget.value ≤ powLimit.value)
    (hlim : powLimit.value < 2 ^ 224) (hlife : 3600 ≤ nHalfLife) (ht : |nTimeDiff| < 2 ^ 32)
    (hh : 0 ≤ nHeightDiff) (hh' : nHeightDiff < 2 ^ 31) :
    ∃ r, CalculateASERT refTarget 600 nTimeDiff nHeightDiff powLimit nHalfLife = some r ∧
      (r.value : ℤ) = asertTarget powLimit.value refTarget.value
        (asertExponent nHalfLife nTimeDiff nHeightDiff) := by
  obtain ⟨hht, hsc, hbeh, hnum, -, hpoly, hfactor, hproduct, hshf, hshifted⟩ :=
    lossless refTarget.value (by omega) hlife ht hh hh'
  have hexp := natAbs_asertExponent_lt hlife ht hh hh'
  have hzero : (ofUint64 0 : ArithUint256).value = 0 := value_ofUint64 0
  have habs : |nTimeDiff - 600 * nHeightDiff| < 2 ^ (63 - 16) := by
    rw [abs_lt] at ht ⊢
    omega
  rw [CalculateASERT,
    if_neg (not_not.mpr ⟨by rw [BaseUint.CompareTo_eq, hzero, Nat.compare_eq_gt]; omega,
      by rw [BaseUint.CompareTo_eq, ne_eq, Nat.compare_eq_gt]; omega⟩),
    if_neg (not_not.mpr (by rw [BaseUint.EqualTo_zero_iff, value_shiftRight, div_eq_of_lt hlim])),
    if_neg (not_not.mpr hh), if_neg (by omega), wrap_eq_self hsc.1, sub_of_fits hbeh.1,
    if_neg (not_not.mpr habs), add_of_fits hht, wrap_eq_self hsc.2, sub_of_fits hbeh.2,
    wrap_eq_self hnum, ← asertExponent]
  generalize asertExponent nHalfLife nTimeDiff nHeightDiff = e at *
  have hmul : wrap (e / 65536 * 65536) = e / 65536 * 65536 := wrap_eq_self ⟨by omega, by omega⟩
  have hsum : e = add (e / 65536 * 65536) (e % 65536).toNat := by
    rw [add_of_fits ⟨by omega, by omega⟩]
    omega
  have hsub : sub (e / 65536) 16 = e / 65536 - 16 := sub_of_fits ⟨by omega, by omega⟩
  have hnext : (refTarget * BitVec.ofNat 32
      (65536 + asertPolynomial (e % 65536).toNat % 2 ^ 64 / 2 ^ 48)).value =
      refTarget.value * asertFactor (e % 65536).toNat := by
    rw [value_mulWord, BitVec.toNat_ofNat, mod_eq_of_lt hpoly, ← asertFactor, mod_eq_of_lt hfactor,
      mod_eq_of_lt hproduct]
  simp only [hmul, ← hsum, not_true_eq_false, if_false, hsub]
  generalize refTarget * BitVec.ofNat 32
    (65536 + asertPolynomial (e % 65536).toNat % 2 ^ 64 / 2 ^ 48) = next at *
  have hsize : next.value.size ≤ 256 := size_le.mpr next.value_lt
  split_ifs with hneg hbits
  · refine ⟨_, rfl, ?_⟩
    have hct : (wrap (-(e / 65536 - 16)) % 2 ^ 32).toNat = (16 - e / 65536).toNat := by
      rw [wrap_eq_self ⟨by omega, by omega⟩]
      omega
    rw [value_clampTarget (by omega), value_shiftRight, hct, hnext, asertTarget,
      scaledTarget_of_le (by omega)]
    push_cast
    rfl
  · -- the shifted number is too large for any limit
    refine ⟨_, rfl, ?_⟩
    rw [bits_eq, add_of_fits ⟨by omega, by omega⟩] at hbits
    have hpos : 0 < next.value.size :=
      size_pos.mpr (by rw [hnext]; have := le_asertFactor (e % 65536).toNat; positivity)
    have hlow := lt_size.mp (sub_lt hpos one_pos)
    have hbig : 2 ^ 255 ≤ next.value * 2 ^ (e / 65536 - 16).toNat :=
      calc 2 ^ 255 ≤ 2 ^ (next.value.size - 1 + (e / 65536 - 16).toNat) := Nat.pow_le_pow_right (by decide) (by omega)
        _ = 2 ^ (next.value.size - 1) * 2 ^ (e / 65536 - 16).toNat := pow_add ..
        _ ≤ _ := mul_le_mul_right _ hlow
    rw [asertTarget, scaledTarget_of_lt (by omega), ← hnext]
    omega
  · refine ⟨_, rfl, ?_⟩
    rw [bits_eq, add_of_fits ⟨by omega, by omega⟩] at hbits
    have hct : ((e / 65536 - 16) % 2 ^ 32).toNat = (e / 65536 - 16).toNat := by omega
    rw [value_clampTarget (by omega), value_shiftLeft, hct, hnext,
      mod_eq_of_lt (hshifted _ (by rw [← hnext]; omega)), asertTarget, scaledTarget_of_lt (by omega)]
    push_cast
    rfl

/-- The result is the exact target, clamped, and follows the time and the height. -/
structure WellBehaved (refTarget powLimit : ArithUint256) (nHalfLife nTimeDiff nHeightDiff : ℤ) :
    Prop where
  lossless : Lossless refTarget.value nHalfLife nTimeDiff nHeightDiff
  exact : ∃ r, CalculateASERT refTarget 600 nTimeDiff nHeightDiff powLimit nHalfLife = some r ∧
    1 ≤ r.value ∧ r.value ≤ powLimit.value ∧
    (r.value : ℤ) = asertTarget powLimit.value refTarget.value
      (asertExponent nHalfLife nTimeDiff nHeightDiff)
  time : ∀ t r r', nTimeDiff ≤ t → |t| < 2 ^ 32 →
    CalculateASERT refTarget 600 nTimeDiff nHeightDiff powLimit nHalfLife = some r →
    CalculateASERT refTarget 600 t nHeightDiff powLimit nHalfLife = some r' → r.value ≤ r'.value
  height : ∀ h r r', nHeightDiff ≤ h → h < 2 ^ 31 →
    CalculateASERT refTarget 600 nTimeDiff nHeightDiff powLimit nHalfLife = some r →
    CalculateASERT refTarget 600 nTimeDiff h powLimit nHalfLife = some r' → r'.value ≤ r.value

/-- Within bounds on its arguments, the target is exact and moves with time and height. -/
theorem CalculateASERT_wellBehaved (href : 1 ≤ refTarget.value) (hle : refTarget.value ≤ powLimit.value)
    (hlim : powLimit.value < 2 ^ 224) (hlife : 3600 ≤ nHalfLife ∧ nHalfLife ≤ 172800)
    (ht : |nTimeDiff| < 2 ^ 32) (hh : 0 ≤ nHeightDiff ∧ nHeightDiff < 2 ^ 31) :
    WellBehaved refTarget powLimit nHalfLife nTimeDiff nHeightDiff := by
  obtain ⟨r, hr, hval⟩ := CalculateASERT_eq href hle hlim hlife.1 ht hh.1 hh.2
  refine ⟨lossless _ (by omega) hlife.1 ht hh.1 hh.2, ⟨r, hr, ?_, ?_, hval⟩, ?_, ?_⟩
  · rw [asertTarget] at hval
    omega
  · rw [asertTarget] at hval
    omega
  · intro t s s' hlet ht' hs hs'
    obtain ⟨r', hr', hval'⟩ := CalculateASERT_eq href hle hlim hlife.1 ht' hh.1 hh.2
    cases hs.symm.trans hr
    cases hs'.symm.trans hr'
    have hmono := asertTarget_mono powLimit.value refTarget.value 
      (asertExponent_mono (show 0 < nHalfLife by omega) hlet (le_refl nHeightDiff))
    rw [← hval, ← hval'] at hmono
    exact_mod_cast hmono
  · intro h s s' hleh hh' hs hs'
    obtain ⟨r', hr', hval'⟩ := CalculateASERT_eq href hle hlim hlife.1 ht (hh.1.trans hleh) hh'
    cases hs.symm.trans hr
    cases hs'.symm.trans hr'
    have hmono := asertTarget_mono powLimit.value refTarget.value 
      (asertExponent_mono (show 0 < nHalfLife by omega) (le_refl nTimeDiff) hleh)
    rw [← hval, ← hval'] at hmono
    exact_mod_cast hmono

theorem CalculateASERT_wellBehaved_two_days :
    WellBehaved (.ofUint64 1000) (.ofUint64 5000) 172800 172800 0 := by
  have hval : ∀ b : BitVec 64, (ofUint64 b : ArithUint256).value = b.toNat := value_ofUint64
  refine CalculateASERT_wellBehaved ?_ ?_ ?_ (by decide) (by decide) (by decide)
  all_goals simp only [hval]; decide

end FloweeHub
