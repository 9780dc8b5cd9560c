import FloweeHub.Chain.NextWork

/-! The target over 144 blocks. On a chain in which every block proves some work and all work stays
below `2 ^ 240` nothing wraps, and the target spreads the work over the time between two blocks. -/

namespace FloweeHub

open Lib Consensus BaseUint Option Nat

variable {ix : IndexHeap} {ps : Params} {tip p q r last first : IndexPtr} {n : ℕ}

/-- A chain of blocks with valid targets, whose sum of the work is below `2 ^ 240`. -/
structure Worked (index : IndexHeap) (powLimit : ArithUint256) (tip : IndexPtr) : Prop where
  height : ∀ p q, index.Above p tip → (index p).pprev = some q →
    (index p).nHeight = (index q).nHeight + 1
  root : ∀ p, index.Above p tip → (index p).pprev = none → (index p).nHeight = 0
  work : ∀ p q, index.Above p tip → (index p).pprev = some q →
    (index p).nChainWork = (index q).nChainWork + GetBlockProof (index p).nBits
  target : ∀ p, index.Above p tip → (SetCompact (index p).nBits).2 = (false, false) ∧
    0 < (SetCompact (index p).nBits).1 ∧ (SetCompact (index p).nBits).1 ≤ powLimit.value
  total : (index tip).nChainWork < 2 ^ 240

namespace Worked

theorem le_GetBlockProof {nBits : ℕ} {powLimit : ArithUint256} (hlim : powLimit.value < 2 ^ 224)
    (hflg : (SetCompact nBits).2 = (false, false)) (hpos : 0 < (SetCompact nBits).1)
    (hle : (SetCompact nBits).1 ≤ powLimit.value) : 2 ^ 32 ≤ GetBlockProof nBits := by
  have hquot : 2 ^ 32 - 1 ≤ (2 ^ 256 - 1 - (SetCompact nBits).1) / ((SetCompact nBits).1 + 1) := by
    rw [le_div_iff_mul_le (succ_pos _)]
    omega
  simp only [GetBlockProof, hflg, Bool.or_self, Bool.false_or, decide_eq_true_eq]
  rw [if_neg (by omega)]
  omega

variable (h : Worked ix ps.powLimit tip)
include h

omit h in
theorem above (hwalk : ix.walk n tip = some p) : ix.Above p tip :=
  ⟨n, by rw [← IndexHeap.walk_eq_up, hwalk]⟩

theorem exists_walk (hn : (n : ℤ) ≤ (ix tip).nHeight) :
    ∃ p, ix.walk n tip = some p ∧ (ix p).nHeight = (ix tip).nHeight - n := by
  induction n with
  | zero => exact ⟨tip, rfl, by simp⟩
  | succ n ih =>
    obtain ⟨p, hwalk, hp⟩ := ih (by omega)
    rw [IndexHeap.walk_succ, hwalk, bind_some]
    cases hq : (ix p).pprev with
    | none =>
      have := h.root p (above hwalk) hq
      omega
    | some q =>
      have := h.height p q (above hwalk) hq
      exact ⟨q, rfl, by omega⟩

theorem work_le (hlim : ps.powLimit.value < 2 ^ 224) {d : ℕ} (hp : ix.walk n tip = some p)
    (hq : ix.walk (n + d) tip = some q) : (ix q).nChainWork + d * 2 ^ 32 ≤ (ix p).nChainWork := by
  induction d generalizing q with
  | zero =>
    cases hp.symm.trans hq
    omega
  | succ d ih =>
    rw [← add_assoc, IndexHeap.walk_succ] at hq
    obtain ⟨r, hr, hprev⟩ := bind_eq_some_iff.mp hq
    obtain ⟨hflg, hpos, hle⟩ := h.target r (above hr)
    have hprf := le_GetBlockProof hlim hflg hpos hle
    have hwork := h.work r q (above hr) hprev
    have := ih hr
    omega

end Worked

def median (a b c : ℕ) : ℕ := max (min a b) (min (max a b) c)

/-- The block with the median time of three. -/
theorem GetSuitableBlock_spec (hp : 3 ≤ (ix p).nHeight) (hq : (ix p).pprev = some q)
    (hr : (ix q).pprev = some r) :
    ∃ m, GetSuitableBlock ix p = some m ∧ (m = p ∨ m = q ∨ m = r) ∧
      (ix m).nTime = median (ix p).nTime (ix q).nTime (ix r).nTime := by
  rw [GetSuitableBlock, if_neg (by omega), hq]
  simp only [bind_eq_bind, bind_some, hr, median, orderByTime]
  split_ifs
  all_goals
    dsimp only at *
    exact ⟨_, rfl, by simp, by omega⟩

/-- The group of three blocks that starts `n` blocks before the tip. -/
theorem Worked.exists_suitable (h : Worked ix ps.powLimit tip) (hn : (n : ℤ) + 3 ≤ (ix tip).nHeight) :
    ∃ p q r m k, ix.walk n tip = some p ∧ (ix p).pprev = some q ∧ (ix q).pprev = some r ∧
      GetSuitableBlock ix p = some m ∧ (ix m).nTime = median (ix p).nTime (ix q).nTime (ix r).nTime ∧
      ix.walk k tip = some m ∧ n ≤ k ∧ k ≤ n + 2 := by
  obtain ⟨p, hp, hht⟩ := h.exists_walk (n := n) (by omega)
  obtain ⟨q, hq, -⟩ := h.exists_walk (n := n + 1) (by omega)
  obtain ⟨r, hr, -⟩ := h.exists_walk (n := n + 2) (by omega)
  have hq' := hq
  have hr' := hr
  rw [IndexHeap.walk_succ, hp, bind_some] at hq'
  rw [IndexHeap.walk_succ, hq, bind_some] at hr'
  obtain ⟨m, hm, hcases, htime⟩ := GetSuitableBlock_spec (by omega) hq' hr'
  obtain ⟨k, hk, hle⟩ : ∃ k, ix.walk k tip = some m ∧ n ≤ k ∧ k ≤ n + 2 := by
    obtain rfl | rfl | rfl := hcases
    · exact ⟨n, hp, by omega, by omega⟩
    · exact ⟨n + 1, hq, by omega, by omega⟩
    · exact ⟨n + 2, hr, by omega, by omega⟩
  exact ⟨p, q, r, m, k, hp, hq', hr', hm, htime, hk, hle⟩

/-- The work between two blocks, spread over the time between them. -/
def workPerBlock (params : Params) (work : ℕ) (timespan : ℤ) : ℕ :=
  work * params.nPowTargetSpacing.toNat / (clampTimespan params timespan).toNat

def exactTarget (params : Params) (work : ℕ) (timespan : ℤ) : ℕ :=
  min params.powLimit.value ((2 ^ 256 - workPerBlock params work timespan) / workPerBlock params
    work timespan)

variable (hs : 0 < ps.nPowTargetSpacing) {a b : ℤ}

include hs

theorem clampTimespan_bounds (timespan : ℤ) : 72 * ps.nPowTargetSpacing ≤ clampTimespan ps timespan ∧
      clampTimespan ps timespan ≤ 288 * ps.nPowTargetSpacing := by
  unfold clampTimespan
  split_ifs <;> omega

theorem clampTimespan_mono (h : a ≤ b) : clampTimespan ps a ≤ clampTimespan ps b := by
  unfold clampTimespan
  split_ifs <;> omega

theorem workPerBlock_bounds (work : ℕ) (hwork : 288 ≤ work) (timespan : ℤ) :
    0 < workPerBlock ps work timespan ∧ workPerBlock ps work timespan ≤ work := by
  obtain ⟨hlow, hhigh⟩ := clampTimespan_bounds hs timespan
  rw [workPerBlock]
  have hpos : 0 < (clampTimespan ps timespan).toNat := by omega
  constructor
  · rw [Nat.div_pos_iff]
    exact ⟨hpos,
      by nlinarith [show (clampTimespan ps timespan).toNat ≤ 288 * ps.nPowTargetSpacing.toNat by omega]⟩
  · rw [div_le_iff_le_mul_add_pred hpos]
    nlinarith [show ps.nPowTargetSpacing.toNat ≤ (clampTimespan ps timespan).toNat by omega]

theorem workPerBlock_anti (work : ℕ) (h : a ≤ b) : workPerBlock ps work b ≤ workPerBlock ps work a := by
  have hclamp := clampTimespan_mono hs h
  have hlow := (clampTimespan_bounds hs a).1
  exact div_le_div_left (by omega) (by omega)

omit hs

theorem target_anti {a b : ℕ} (hpos : 0 < a) (h : a ≤ b) (limit : ℕ) :
    min limit ((2 ^ 256 - b) / b) ≤ min limit ((2 ^ 256 - a) / a) :=
  min_le_min_left _ (Nat.div_le_div (by omega) h (by omega))

/-- Nothing wraps, and the target is that of the work per block. -/
theorem ComputeTarget_spec (first last : IndexPtr) (hs : 0 < ps.nPowTargetSpacing)
    (hs' : ps.nPowTargetSpacing ≤ 2 ^ 16) (hht : (ix first).nHeight < (ix last).nHeight)
    (hwork : (ix first).nChainWork + 288 ≤ (ix last).nChainWork)
    (hlast : (ix last).nChainWork < 2 ^ 240) : ∃ t W, ComputeTarget ix ps first last = some t ∧
      W = workPerBlock ps ((ix last).nChainWork - (ix first).nChainWork) ((ix last).nTime -
        (ix first).nTime) ∧
      t.value = (2 ^ 256 - W) / W := by
  have hfull : ∀ n < 2 ^ 240, (ofNat n : ArithUint256).value = n := fun n hn => by
    rw [value_ofNat, mod_eq_of_lt (by omega)]
  have hdiff : (ofNat (ix last).nChainWork - ofNat (ix first).nChainWork : ArithUint256).value =
      (ix last).nChainWork - (ix first).nChainWork := by
    rw [value_sub _ _ (by rw [hfull _ hlast, hfull _ (by omega)]; omega), hfull _ hlast,
      hfull _ (by omega)]
  obtain ⟨hlow, hhigh⟩ := clampTimespan_bounds hs ((ix last).nTime - (ix first).nTime)
  obtain ⟨hpos, hle⟩ := workPerBlock_bounds hs ((ix last).nChainWork - (ix first).nChainWork) (by omega)
    ((ix last).nTime - (ix first).nTime)
  rw [ComputeTarget, if_neg (not_le.mpr hht)]
  rw [workPerBlock] at *
  generalize (ofNat (ix last).nChainWork - ofNat (ix first).nChainWork : ArithUint256) = x at *
  have hbound : x.value < 2 ^ 240 := by omega
  generalize (ix last).nChainWork - (ix first).nChainWork = d at *
  generalize clampTimespan ps ((ix last).nTime - (ix first).nTime) = span at *
  have hscaled : (x * BitVec.ofInt 32 ps.nPowTargetSpacing).value = d * ps.nPowTargetSpacing.toNat := by
    rw [value_mulWord, hdiff, BitVec.toNat_ofInt,
      show (ps.nPowTargetSpacing % (2 ^ 32 : ℕ)).toNat = ps.nPowTargetSpacing.toNat by omega]
    apply mod_eq_of_lt
    calc d * ps.nPowTargetSpacing.toNat ≤ d * 2 ^ 16 := mul_le_mul_left _ (by omega)
      _ < 2 ^ (32 * 8) := by omega
  have hspan : (ofUint64 (BitVec.ofInt 64 span) : ArithUint256).value = span.toNat := by
    rw [value_ofUint64, BitVec.toNat_ofInt]
    omega
  obtain ⟨w, hw, hwvalue⟩ :=
    div_spec (x * BitVec.ofInt 32 ps.nPowTargetSpacing) (.ofUint64 (.ofInt 64 span))
    (by omega)
  rw [hscaled, hspan] at hwvalue
  obtain ⟨t, ht, htvalue⟩ := div_spec (-w) w (by omega)
  refine ⟨t, _, ?_, rfl, ?_⟩
  · simp [hw, ht, Except.toOption]
  · rw [htvalue, value_neg, hwvalue, mod_eq_of_lt (by omega)]

/-- What the target over 144 blocks is computed from. -/
structure Computed (index : IndexHeap) (params : Params) (tip : IndexPtr) (work : ℕ) (timespan : ℤ)
    (target : ArithUint256) :
    Prop where
  chosen : ∃ p₀ p₁ p₂ q₀ q₁ q₂ last first, p₀ = tip ∧
    index.GetAncestor tip ((index tip).nHeight - 144) = some q₀ ∧
    (index p₀).pprev = some p₁ ∧ (index p₁).pprev = some p₂ ∧ (index q₀).pprev = some q₁ ∧
    (index q₁).pprev = some q₂ ∧
    GetSuitableBlock index p₀ = some last ∧
    (index last).nTime = median (index p₀).nTime (index p₁).nTime (index p₂).nTime ∧
    GetSuitableBlock index q₀ = some first ∧
    (index first).nTime = median (index q₀).nTime (index q₁).nTime (index q₂).nTime ∧
    (index first).nChainWork ≤ (index last).nChainWork ∧
    work = (index last).nChainWork - (index first).nChainWork ∧
    timespan = (index last).nTime - (index first).nTime
  wraps : work * params.nPowTargetSpacing.toNat < 2 ^ 256
  divisor : 0 < workPerBlock params work timespan
  computed : cw144Target index params tip = some target
  exact : target.value = exactTarget params work timespan
  range : 1 ≤ target.value ∧ target.value ≤ params.powLimit.value

/-- Such a tip, with the limit, the spacing and the height that the algorithm relies on. -/
structure HighEnough (index : IndexHeap) (params : Params) (tip : IndexPtr) : Prop where
  worked : Worked index params.powLimit tip
  limit : params.powLimit.value < 2 ^ 224
  spacing : 0 < params.nPowTargetSpacing ∧ params.nPowTargetSpacing ≤ 2 ^ 16
  interval : params.DifficultyAdjustmentInterval ≤ (index tip).nHeight
  blocks : 147 ≤ (index tip).nHeight

theorem HighEnough.computed (h : HighEnough ix ps tip) :
    ∃ work timespan target, Computed ix ps tip work timespan target := by
  obtain ⟨hworked, hlim, ⟨hs, hs'⟩, hinterval, hblks⟩ := h
  obtain ⟨p0, p1, p2, last, k, hp0, hp1, hp2, hlast, hlasttime, hk, -, hk'⟩ :=
    hworked.exists_suitable (n := 0) (by omega)
  obtain ⟨q0, q1, q2, first, m, hq0, hq1, hq2, hfst, hfirsttime, hm, hm', hm''⟩ :=
    hworked.exists_suitable (n := 144) (by omega)
  cases hp0
  have hanc : ix.GetAncestor tip ((ix tip).nHeight - 144) = some q0 := by
    rw [IndexHeap.GetAncestor, if_neg (by omega), ← hq0]
    congr 1
    omega
  have hht : ∀ {n b}, ix.walk n tip = some b → (n : ℤ) ≤ (ix tip).nHeight →
      (ix b).nHeight = (ix tip).nHeight - n := fun hb hn => by
    obtain ⟨b', hb', heq⟩ := hworked.exists_walk hn
    rwa [some_inj.mp (hb.symm.trans hb')]
  have hwork := hworked.work_le hlim hk (d := m - k) (by rwa [Nat.add_sub_cancel' (by omega)])
  have htot := hworked.work_le hlim (n := 0) (d := k) rfl (by rwa [zero_add])
  have hsum := hworked.total
  obtain ⟨t, W, ht, hW, hval⟩ := ComputeTarget_spec first last hs hs'
    (by rw [hht hm (by omega), hht hk (by omega)]; omega) (by omega) (by omega)
  obtain ⟨hWpos, hWle⟩ := workPerBlock_bounds hs ((ix last).nChainWork - (ix first).nChainWork)
    (by omega)
    ((ix last).nTime - (ix first).nTime)
  have hclamped : (if t.CompareTo ps.powLimit = .gt then ps.powLimit else t).value =
      exactTarget ps ((ix last).nChainWork - (ix first).nChainWork)
        ((ix last).nTime - (ix first).nTime) := by
    rw [exactTarget, ← hW, ← hval]
    split_ifs with hgt <;> rw [BaseUint.CompareTo_eq, Nat.compare_eq_gt] at hgt <;> omega
  have hone : 1 ≤ (2 ^ 256 - W) / W := (one_le_div_iff (by omega)).mpr (by omega)
  have hlimit := (hworked.target tip (ParentTree.IsAncestor.refl tip)).2
  refine ⟨_, _, _, ⟨tip, p1, p2, q0, q1, q2, last, first, rfl, hanc, hp1, hp2, hq1, hq2, hlast,
    hlasttime, hfst, hfirsttime, by omega, rfl, rfl⟩, ?_, hWpos, ?_, hclamped, ?_⟩
  · calc _ ≤ ((ix last).nChainWork - (ix first).nChainWork) * 2 ^ 16 := mul_le_mul_left _ (by omega)
      _ < 2 ^ 256 := by omega
  · rw [cw144Target, if_neg (by omega)]
    simp [hlast, hanc, hfst, ht]
  · rw [hclamped, exactTarget, ← hW]
    omega

/-- On a chain that is high enough the target is exact, in range and follows time and work. -/
theorem cw144_bounded (h : HighEnough ix ps tip) : ∃ work timespan target,
    Computed ix ps tip work timespan target ∧
    (∀ index' tip' timespan' target', Computed index' ps tip' work timespan' target' →
      timespan ≤ timespan' → target.value ≤ target'.value) ∧
    ∀ index' tip' work' target', Computed index' ps tip' work' timespan target' → work ≤ work' →
      target'.value ≤ target.value := by
  obtain ⟨work, timespan, target, hcomp⟩ := h.computed
  refine ⟨work, timespan, target, hcomp, fun index' tip' timespan' target' h' hle => ?_,
    fun index' tip' work' target' h' hle => ?_⟩
  · rw [hcomp.exact, h'.exact]
    exact target_anti h'.divisor (workPerBlock_anti h.spacing.1 work hle) _
  · rw [hcomp.exact, h'.exact]
    exact target_anti hcomp.divisor (Nat.div_le_div_right (Nat.mul_le_mul_right _ hle)) _

/-- What is required is always found: the limit for a block that is late where that is allowed, else
the target, in compact form and so no higher. -/
theorem HighEnough.required (h : HighEnough ix ps tip) (blockTime : ℤ) : ∃ work timespan target bits,
    Computed ix ps tip work timespan target ∧
      CalculateNextCW144WorkRequired ix ps tip blockTime = some bits ∧
      ArithUint256.GetCompact (if late ix ps tip blockTime then ps.powLimit else target) = some bits ∧
      (ArithUint256.SetCompact bits).1.value ≤ ps.powLimit.value := by
  obtain ⟨work, timespan, target, hcomp⟩ := h.computed
  obtain ⟨bits, hbits, hval⟩ :=
    ArithUint256.GetCompact_spec (if late ix ps tip blockTime then ps.powLimit else target)
  refine ⟨work, timespan, target, bits, hcomp, ?_, hbits, ?_⟩
  · rw [CalculateNextCW144WorkRequired, hcomp.computed, ← hbits]
    split_ifs <;> rfl
  · have hle : (if late ix ps tip blockTime then ps.powLimit else target).value ≤ ps.powLimit.value := by
      split_ifs
      · exact le_rfl
      · exact hcomp.range.2
    rw [(ArithUint256.value_SetCompact_of_compact hbits).1]
    exact (Nat.sub_le _ _).trans hle

def steadyIndex : IndexHeap := fun p =>
  { phashBlock := p, pprev := if p = 0 then none else some (p - 1), nHeight := p,
    nChainWork := p * 0x100010001, nTime := 600 * p, nBits := 0x1d00ffff }

def steadyParams : Params where
  powLimit := (ArithUint256.SetCompact 0x1d00ffff).1
  hf201711Height := 0
  hf202011Height := 3000

theorem steady_highEnough : HighEnough steadyIndex steadyParams 2016 := by
  have hlim : steadyParams.powLimit.value = (SetCompact 0x1d00ffff).1 :=
    congrArg Prod.fst (ArithUint256.SetCompact_eq 0x1d00ffff)
  have hprev : ∀ p q : ℕ, (steadyIndex p).pprev = some q → p = q + 1 := fun p q hq => by
    simp only [steadyIndex] at hq
    split_ifs at hq with hzero
    have hpred : (p - 1 : ℕ) = q := some_inj.mp hq
    have hpos : p ≠ 0 := hzero
    omega
  have hprf : GetBlockProof 0x1d00ffff = 0x100010001 := by decide
  refine ⟨⟨fun p q _ hq => ?_, fun p _ hq => ?_, fun p q _ hq => ?_, fun p _ => ?_, by decide⟩, ?_,
    by decide, by decide, by decide⟩
  · rw [hprev p q hq]
    rfl
  · simpa [steadyIndex] using hq
  · rw [hprev p q hq]
    simp only [steadyIndex, hprf]
    ring
  · change (SetCompact 0x1d00ffff).2 = _ ∧ 0 < (SetCompact 0x1d00ffff).1 ∧ (SetCompact 0x1d00ffff).1 ≤ _
    exact ⟨by decide, by decide, le_rfl⟩
  · decide

theorem cw144_bounded_steady :
    ∃ work timespan target, Computed steadyIndex steadyParams 2016 work timespan target := by
  obtain ⟨work, timespan, target, h, -⟩ := cw144_bounded steady_highEnough
  exact ⟨work, timespan, target, h⟩

end FloweeHub
