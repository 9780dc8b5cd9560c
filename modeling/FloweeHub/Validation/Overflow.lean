import FloweeHub.Validation.Value

/-! The `int64_t` sums of a block. Only the sum over the inputs of a transaction and the sum of the
fees can overflow, and not in a block that passes: what it spends comes from somewhere. -/

namespace FloweeHub.Validation

open Lib Wrap64 List Option
open scoped List

variable {acc : ℤ} {vout : List TxOut} {tx : Transaction}

/-- The exact sums of the loop over the outputs in `checkTransaction`. -/
def checkOutputsSums (nValueOut : ℤ) : List TxOut → List ℤ
  | [] => []
  | txout :: rest =>
    if txout.nValue < 0 || MAX_MONEY < txout.nValue then []
    else
      (nValueOut + txout.nValue) ::
        if MoneyRange (add nValueOut txout.nValue) then
          checkOutputsSums (add nValueOut txout.nValue) rest
        else []

theorem fits_add_of_moneyRange {a b : ℤ} (ha : MoneyRange a) (hb : MoneyRange b) :
    Wrap64.Fits (a + b) := by
  rw [moneyRange_iff] at ha hb
  exact fits_of_abs_le (by omega) (by omega)

theorem fits_checkOutputsSums (hacc : MoneyRange acc) :
    ∀ x ∈ checkOutputsSums acc vout, Wrap64.Fits x := by
  induction vout generalizing acc with
  | nil => simp [checkOutputsSums]
  | cons o rest ih =>
    unfold checkOutputsSums
    split
    · simp
    next hout =>
      simp only [Bool.or_eq_true, decide_eq_true_eq, not_or, not_lt] at hout
      refine forall_mem_cons.mpr ⟨fits_add_of_moneyRange hacc (moneyRange_iff.mpr hout), ?_⟩
      split_ifs with hsum
      · exact ih hsum
      · simp

theorem fits_valueOutSums (hacc : MoneyRange acc)
    (h : ∀ o ∈ vout, MoneyRange o.nValue) : ∀ x ∈ valueOutSums acc vout, Wrap64.Fits x := by
  induction vout generalizing acc with
  | nil => simp [valueOutSums]
  | cons o rest ih =>
    obtain ⟨ho, hrest⟩ := forall_mem_cons.mp h
    refine forall_mem_cons.mpr ⟨fits_add_of_moneyRange hacc ho, ?_⟩
    split_ifs with hsum
    · exact ih (Bool.and_eq_true _ _ ▸ hsum).2 hrest
    · simp

theorem checkOutputs_ok (hacc : MoneyRange acc) (h : checkOutputs acc vout = .ok ()) :
    (∀ o ∈ vout, MoneyRange o.nValue) ∧ MoneyRange (acc + (vout.map TxOut.nValue).sum) := by
  induction vout generalizing acc with
  | nil => simpa using hacc
  | cons o rest ih =>
    unfold checkOutputs throwInvalid at h
    split_ifs at h with hneg hbig hsum
    have ho : MoneyRange o.nValue := moneyRange_iff.mpr ⟨not_lt.mp hneg, not_lt.mp hbig⟩
    rw [Bool.not_eq_true', Bool.not_eq_false] at hsum
    obtain ⟨hrest, htot⟩ := ih hsum h
    rw [add_of_fits (fits_add_of_moneyRange hacc ho), add_assoc] at htot
    exact ⟨forall_mem_cons.mpr ⟨ho, hrest⟩, by simpa using htot⟩

theorem checkTransaction_outputs (h : checkTransaction tx = .ok ()) :
    tx.vout ≠ [] ∧ (∀ o ∈ tx.vout, MoneyRange o.nValue) ∧ MoneyRange tx.valueOut := by
  obtain ⟨-, h⟩ := Guards.ite_error_eq_ok_iff.mp h
  obtain ⟨hvout, h⟩ := Guards.ite_error_eq_ok_iff.mp h
  obtain ⟨-, h⟩ := Guards.ite_error_eq_ok_iff.mp h
  obtain ⟨_, hout, -⟩ := Guards.bind_eq_ok_iff.mp h
  obtain ⟨hrg, htot⟩ := checkOutputs_ok (by decide) hout
  exact ⟨hvout, hrg, by simpa [Transaction.valueOut] using htot⟩

/-! ### Sums of one transaction -/

/-- The sums of `validateTransactionInputs` fit when the values of the inputs do. -/
theorem fits_validateSums {unspents : List PrevOut} (hout : ∀ o ∈ tx.vout, MoneyRange o.nValue)
    (hpos : ∀ p ∈ unspents, 0 ≤ p.amount) (hsum : (unspents.map PrevOut.amount).sum < 2 ^ 63) :
    ∀ x ∈ validateSums tx unspents, Wrap64.Fits x := by
  have hin : ∀ x ∈ partialSums 0 (unspents.map PrevOut.amount), Wrap64.Fits x :=
    fits_partialSums le_rfl (by simpa using hpos) (by simpa using hsum)
  have houts : ∀ x ∈ valueOutSums 0 tx.vout, Wrap64.Fits x := fits_valueOutSums (by decide) hout
  refine forall_mem_append.mpr ⟨forall_mem_append.mpr ⟨hin, houts⟩, ?_⟩
  cases hv : tx.GetValueOut with
  | error what => simp
  | ok v =>
    dsimp only
    split_ifs with hbad
    · simp
    · refine forall_mem_append.mpr ⟨houts, ?_⟩
      simp only [Bool.or_eq_true, decide_eq_true_eq, Bool.not_eq_true', not_or, not_lt,
        Bool.not_eq_false] at hbad
      have hr := moneyRange_iff.mp (Transaction.GetValueOut_ok hv).2.1
      have hi := moneyRange_iff.mp hbad.2
      simpa using fits_of_abs_le (v := valueIn unspents - v) (by omega) (by omega)

namespace BlockValidationState

variable (out : TxInput → TxOut) (env : CheckEnv) (st : BlockValidationState) (H : ℤ)

/-- The records can be read and, unless it is the coinbase, the lock times have passed. -/
def AddsUp (t : Transaction × ℕ) (us : List UnspentOutput) : Prop :=
  (st.prevOuts env us).isSome ∧ t.2 ≠ 0 ∧
    sequenceLocks env.medianTimePast H st.flags.nLocktimeVerifySequence t.1
      (us.map UnspentOutput.blockHeight) = true

def exactFee (t : Transaction × ℕ) (us : List UnspentOutput) : ℤ :=
  if t.2 = 0 then 0 else value out us - t.1.valueOut

/-- The inputs of each transaction that is added up, and all fees, are worth less than `2^63`. -/
def SumsFit (fees : ℤ) : List (Transaction × ℕ) → List UnspentOutput → Prop
  | [], _ => True
  | t :: rest, bag => ∀ us, spending.resolve (inputsOf t) bag = some us →
      (st.AddsUp env H t us → value out us < 2 ^ 63) ∧
      ((st.txResult env H ⟨t.1, t.2, us⟩).isSome →
        fees + exactFee out t us < 2 ^ 63 ∧
          SumsFit (fees + exactFee out t us) rest (spending.left (inputsOf t) bag))

/-- The records can only be read as what they are, and none has a negative value. -/
structure Sound (bag : List UnspentOutput) : Prop where
  reads : ReadsTo out env bag
  nonneg : ∀ u ∈ bag, 0 ≤ (out u.outpoint).nValue

variable {out env st H} {t : Transaction × ℕ} {txs : List (Transaction × ℕ)}
  {bag us : List UnspentOutput} {res : List ResolvedTx}

theorem Sound.subset {bag' : List UnspentOutput} (h : Sound out env bag) (hsub : bag' ⊆ bag) :
    Sound out env bag' :=
  ⟨fun u hu => h.reads u (hsub hu), fun u hu => h.nonneg u (hsub hu)⟩

theorem subset_of_resolve {inputs : List TxInput} (h : spending.resolve inputs bag = some us) :
    us ⊆ bag ∧ spending.left inputs bag ⊆ bag := by
  have hperm := (Supply.perm_of_resolve_bag h).2.1
  exact ⟨fun u hu => hperm.mem_iff.mpr (mem_append_left _ hu), fun u hu =>
    hperm.mem_iff.mpr (mem_append_right _ hu)⟩

section

variable (hpass : st.Passes env H txs bag res)

include hpass

section

variable (hsnd : Sound out env bag)
include hsnd

theorem Passes.sound : ∀ r ∈ res, Sound out env r.spent := fun r hr =>
  hsnd.subset fun _ hu =>
    (subset_of_resolve (resolveTxs_iff.mp hpass.1).1).1 (mem_flatMap.mpr ⟨r, hr, hu⟩)

theorem Passes.charged_nonneg (hval : st.flags.enableValidation) :
    ∀ x ∈ res.map (charged out), 0 ≤ x := fun x hx => by
  obtain ⟨r, hr, rfl⟩ := mem_map.mp hx
  exact BlockValidationState.charged_nonneg hval (hpass.sound hsnd r hr).reads (hpass.2 r hr)

theorem Passes.lost_nonneg : ∀ x ∈ res.map (lost out), 0 ≤ x := fun x hx => by
  obtain ⟨r, hr, rfl⟩ := mem_map.mp hx
  have := wrap_le_self (value_nonneg (hpass.sound hsnd r hr).nonneg)
  unfold lost
  omega

/-- The fees of a block that passes are what its transactions charge. -/
theorem Passes.fees_sum (hval : st.flags.enableValidation) :
    (st.fees env H res).sum = (res.map (charged out)).sum :=
  BlockValidationState.fees_sum hval (fun r hr => (hpass.sound hsnd r hr).reads) hpass.2

end

omit hpass

end

theorem addsUp_of_txResult (hval : st.flags.enableValidation) (ht : t.2 ≠ 0)
    (h : (st.txResult env H ⟨t.1, t.2, us⟩).isSome) :
    st.AddsUp env H t us := by
  obtain ⟨x, hx⟩ := isSome_iff_exists.mp h
  obtain ⟨ps, hps, hx⟩ := bind_eq_some_iff.mp hx
  refine ⟨isSome_iff_exists.mpr ⟨ps, hps⟩, ht, ?_⟩
  unfold checkFees at hx
  simp only [hval, Nat.pos_of_ne_zero ht, decide_true, Bool.and_self, if_true] at hx
  split_ifs at hx with hlocks
  · cases hx
  · simpa using hlocks

theorem fits_feeSums (hval : st.flags.enableValidation) {ps : List PrevOut}
    (hsnd : Sound out env us) (hout : ∀ o ∈ t.1.vout, MoneyRange o.nValue)
    (hps : st.prevOuts env us = some ps) (hsum : st.AddsUp env H t us → value out us < 2 ^ 63) :
    ∀ x ∈ st.feeSums env H t.2 t.1 ⟨us.map UnspentOutput.blockHeight, ps⟩, Wrap64.Fits x := by
  unfold feeSums
  rcases Nat.eq_zero_or_pos t.2 with ht | ht
  · simp [ht]
  · simp only [hval, ht, decide_true, Bool.and_self, if_true]
    split_ifs with hlocks
    · have hamounts := amounts_prevOuts hval hsnd.reads hps
      refine fits_validateSums hout (fun p hp => ?_) ?_
      · have hmem : p.amount ∈ us.map fun u => (out u.outpoint).nValue := hamounts ▸ mem_map_of_mem hp
        obtain ⟨u, hu, heq⟩ := mem_map.mp hmem
        exact heq ▸ hsnd.nonneg u hu
      · rw [hamounts]
        exact hsum ⟨isSome_iff_exists.mpr ⟨ps, hps⟩, ht.ne', hlocks⟩
    · simp

/-! ### Sums of a chunk -/

theorem spendInputs_sums (hv : st.checkValidityOnly = false) (inputs : List TxInput) (c : ChunkVars) :
    (st.spendInputs env H inputs c).1.sums = c.sums ∧
      (st.spendInputs env H inputs c).1.chunkFees = c.chunkFees := by
  refine spendInputs_preserves (P := fun c' => c'.sums = c.sums ∧ c'.chunkFees = c.chunkFees) env H
    (fun i c' h => ?_) inputs ⟨rfl, rfl⟩
  simp only [spendInput, hv, Bool.false_eq_true, if_false]
  unfold spendFromUtxo
  split
  · exact h
  · split
    · exact h
    · dsimp only
      split_ifs <;> exact h

/-- `before` are the fees of the chunks that are done, `left` the transactions to come. -/
structure ChunkFits (out : TxInput → TxOut) (env : CheckEnv) (st : BlockValidationState)
    (blockHeight before : ℤ) (left : List (Transaction × ℕ)) (c : ChunkVars) : Prop where
  sums : ∀ x ∈ c.sums, Wrap64.Fits x
  fees : 0 ≤ c.chunkFees ∧ before + c.chunkFees < 2 ^ 63
  sound : Sound out env c.utxo.working
  rest : st.SumsFit out env blockHeight (before + c.chunkFees) left c.utxo.working

/-- The part of it that is left when an exception has ended the chunk. -/
def EndFits (before : ℤ) (c : ChunkVars) : Prop :=
  (∀ x ∈ c.sums, Wrap64.Fits x) ∧ 0 ≤ c.chunkFees ∧ before + c.chunkFees < 2 ^ 63

/-- The fee of a transaction that passes is exact when its inputs fit. -/
theorem txResult_exactFee (hval : st.flags.enableValidation) {x : Option (ℤ × ℕ)}
    (hsnd : Sound out env us) (hsum : st.AddsUp env H t us → value out us < 2 ^ 63)
    (h : st.txResult env H ⟨t.1, t.2, us⟩ = some x) :
    0 ≤ exactFee out t us ∧
      (x = none ∧ exactFee out t us = 0 ∨ ∃ n, x = some (exactFee out t us, n)) := by
  unfold exactFee
  split_ifs with ht
  · exact ⟨le_rfl, .inl ⟨txResult_coinbase ht h, rfl⟩⟩
  · have hlt := hsum (addsUp_of_txResult hval ht (by rw [h]; rfl))
    have hpos := value_nonneg hsnd.nonneg
    obtain ⟨n, rfl, hle⟩ := txResult_spec hval hsnd.reads ht h
    rw [wrap_eq_self ⟨by omega, hlt⟩] at hle ⊢
    dsimp only at hle
    exact ⟨by omega, .inr ⟨n, rfl⟩⟩

theorem SumsFit.of_sameBlock {st' : BlockValidationState} (hsame : SameBlock st st') {fees : ℤ} :
    st'.SumsFit out env H fees txs bag ↔ st.SumsFit out env H fees txs bag := by
  induction txs generalizing fees bag with
  | nil => exact Iff.rfl
  | cons t txs ih =>
    simp only [SumsFit, AddsUp, hsame.txResult, prevOuts_congr hsame.flags hsame.fetchFees,
    hsame.flags, ih]

theorem mem_of_mem_chunkTxs {split : ChunkSplit} {k : ℕ} (h : t ∈ st.chunkTxs split k) :
    t.1 ∈ st.block.vtx := by
  have hzip : t ∈ st.block.vtx.zipIdx := by
    unfold chunkTxs at h
    split_ifs at h
    · exact h
    · cases h
    · exact mem_of_mem_drop (mem_of_mem_take h)
  exact fst_mem_of_mem_zipIdx hzip

@[simp] theorem failedBy_sums (internal : RejectCode) (t : Thrown) :
    (st.failedBy internal t).sums = st.sums := by
  cases t <;> rfl

@[simp] theorem failedBy_blockFees (internal : RejectCode) (t : Thrown) :
    (st.failedBy internal t).blockFees = st.blockFees := by
  cases t <;> rfl

section

variable (hval : st.flags.enableValidation) (hv : st.checkValidityOnly = false)
include hval hv

variable (H) {left : List (Transaction × ℕ)} {before : ℤ} {c : ChunkVars} in
theorem checkTx_fits (hbef : 0 ≤ before) (hout : ∀ o ∈ t.1.vout, MoneyRange o.nValue)
    (h : ChunkFits out env st H before (t :: left) c) :
    EndFits before (st.checkTx env H t c).1 ∧ ((st.checkTx env H t c).2 = none →
        ChunkFits out env st H before left (st.checkTx env H t c).1) := by
  have hspd := @spendInputs_sums env st H hv (inputsOf t) c
  unfold checkTx
  rw [show (if t.2 = 0 then [] else t.1.findInputs) = inputsOf t from rfl]
  split
  next c1 e heq =>
    rw [heq] at hspd
    refine ⟨⟨?_, ?_⟩, by simp⟩
    · rw [hspd.1]
      exact h.sums
    · rw [hspd.2]
      exact h.fees
  next c1 s heq =>
    rw [heq] at hspd
    obtain ⟨us, ps, hus, hps, rfl, rfl⟩ := ((spendsFrom_utxo env H hv).spendInputs_ok_iff trivial).mp heq
    obtain ⟨-, hleft⟩ := (spendsFrom_utxo env H hv).foldl_move trivial hus
    obtain ⟨hsub, hsub'⟩ := subset_of_resolve hus
    obtain ⟨hsum, hrest⟩ := h.rest us hus
    have hsnd : Sound out env us := h.sound.subset hsub
    have hfee := @fits_feeSums out env st H t us hval ps hsnd hout hps hsum
    generalize hc1 : ({ us.foldl (ChunkVars.spend st.blockId) c with sums := _ } : ChunkVars) = c1
    have hsums1 : ∀ x ∈ c1.sums, Wrap64.Fits x := by
      rw [← hc1]
      exact forall_mem_append.mpr ⟨hspd.1 ▸ h.sums, hfee⟩
    have hfees1 : c1.chunkFees = c.chunkFees := by rw [← hc1]; exact hspd.2
    have hutxo1 : c1.utxo.working = spending.left (inputsOf t) c.utxo.working := by
      rw [← hc1]; exact hleft
    split
    next e _ => exact ⟨⟨hsums1, hfees1 ▸ h.fees⟩, by simp⟩
    next x hx =>
      have hres : st.txResult env H ⟨t.1, t.2, us⟩ = some x := by
        simp [txResult, hps, hx, Except.toOption]
      obtain ⟨hlt, hmore⟩ := hrest (by rw [hres]; rfl)
      obtain ⟨hnonneg, hcase⟩ := txResult_exactFee hval hsnd hsum hres
      suffices hdone : ChunkFits out env st H before left (st.finishTx t.1 x c1) from
        ⟨⟨hdone.sums, hdone.fees⟩, fun _ => hdone⟩
      have hwk : (st.finishTx t.1 x c1).utxo.working = spending.left (inputsOf t) c.utxo.working := by
        rw [finishTx_utxo, hutxo1]
      have hfees : (st.finishTx t.1 x c1).chunkFees = c.chunkFees + exactFee out t us ∧
          ∀ y ∈ (st.finishTx t.1 x c1).sums, Wrap64.Fits y := by
        have hfit : Wrap64.Fits (c.chunkFees + exactFee out t us) :=
          ⟨by have := h.fees.1; omega, by omega⟩
        rcases hcase with ⟨rfl, hzero⟩ | ⟨n, rfl⟩
        · simp only [finishTx, hv, Bool.false_eq_true, if_false]
          exact ⟨by rw [hfees1, hzero, add_zero], hsums1⟩
        · simp only [finishTx, hv, Bool.false_eq_true, if_false, hfees1]
          exact ⟨add_of_fits hfit, forall_mem_append.mpr ⟨hsums1, by simpa using hfit⟩⟩
      refine ⟨hfees.2, ?_, ?_, ?_⟩
      · have := h.fees.1
        exact ⟨by omega, by omega⟩
      · rw [hwk]
        exact h.sound.subset hsub'
      · rw [hwk, hfees.1, ← add_assoc]
        exact hmore

theorem checkTxs_fits (hbef : 0 ≤ before) (hout : ∀ t ∈ txs, ∀ o ∈ t.1.vout, MoneyRange o.nValue)
    (h : ChunkFits out env st H before (txs ++ left) c) :
    EndFits before (st.checkTxs env H txs c).1 ∧ ((st.checkTxs env H txs c).2 = none →
        ChunkFits out env st H before left (st.checkTxs env H txs c).1) := by
  induction txs generalizing c with
  | nil => exact ⟨⟨h.sums, h.fees⟩, fun _ => h⟩
  | cons t txs ih =>
    obtain ⟨ht, hout⟩ := forall_mem_cons.mp hout
    obtain ⟨hend, hgo⟩ := checkTx_fits H hval hv hbef ht h
    unfold checkTxs
    split
    next heq =>
      rw [heq] at hend
      exact ⟨hend, by simp⟩
    next heq =>
      rw [heq] at hgo
      exact ih hout (hgo rfl)

/-! ### Sums of a block -/

/-- What is known of the state of a block while its chunks run. -/
structure BlockFits (out : TxInput → TxOut) (env : CheckEnv) (st : BlockValidationState)
    (blockHeight : ℤ) (left : List (Transaction × ℕ)) (utxo : UnspentOutputDatabase) : Prop where
  sums : ∀ x ∈ st.sums, Wrap64.Fits x
  fees : 0 ≤ st.blockFees ∧ st.blockFees < 2 ^ 63
  rest : st.status.invalid = false →
    Sound out env utxo.working ∧ st.SumsFit out env blockHeight st.blockFees left utxo.working

theorem checkSignaturesChunk_fits (split : ChunkSplit) (k : ℕ) {utxo : UnspentOutputDatabase}
    (hout : ∀ tx ∈ st.block.vtx, ∀ o ∈ tx.vout, MoneyRange o.nValue)
    (h : BlockFits out env st H (st.chunkTxs split k ++ left) utxo) :
    BlockFits out env (st.checkSignaturesChunk env H split k utxo).2 H left
      (st.checkSignaturesChunk env H split k utxo).1 := by
  have hsame := @sameBlock_checkSignaturesChunk env H st split k utxo
  obtain ⟨hpos, hlt⟩ := h.fees
  cases hinv : st.status.invalid with
  | true =>
    have hzero : Wrap64.Fits (st.blockFees + 0) := ⟨by omega, by omega⟩
    have hinv' : (st.checkSignaturesChunk env H split k utxo).2.status.invalid := by
      simp [checkSignaturesChunk, hinv, checkTxs]
    refine ⟨?_, ?_, fun hvalid => by simp [hinv'] at hvalid⟩
    · simp only [checkSignaturesChunk, hinv, if_true, checkTxs]
      exact forall_mem_append.mpr ⟨by simpa using h.sums, by simpa using hzero⟩
    · simp only [checkSignaturesChunk, hinv, if_true, checkTxs, add_of_fits hzero, add_zero]
      exact h.fees
  | false =>
    obtain ⟨hsnd, hrest⟩ := h.rest hinv
    have hst : ChunkFits out env st H st.blockFees (st.chunkTxs split k ++ left)
        { utxo := utxo, txMap := st.txMap, spentMap := st.spentMap } :=
      ⟨by simp, ⟨le_rfl, by simpa using hlt⟩, hsnd, by simpa using hrest⟩
    obtain ⟨⟨hsums, hfees⟩, hgo⟩ :=
      checkTxs_fits hval hv hpos (fun t ht => hout _ (mem_of_mem_chunkTxs ht)) hst
    unfold checkSignaturesChunk at hsame ⊢
    simp only [hinv, Bool.false_eq_true, if_false] at hsame ⊢
    set r := st.checkTxs env H (st.chunkTxs split k)
      { utxo := utxo, txMap := st.txMap, spentMap := st.spentMap }
    have hfit : Wrap64.Fits (st.blockFees + r.1.chunkFees) := ⟨by omega, by omega⟩
    cases hr : r.2 with
    | none =>
      have hdone := hgo hr
      simp only [hr] at hsame ⊢
      refine ⟨?_, ?_, fun _ => ⟨hdone.sound, ?_⟩⟩
      · exact forall_mem_append.mpr ⟨forall_mem_append.mpr ⟨h.sums, hsums⟩, by simpa using hfit⟩
      · dsimp only
        rw [add_of_fits hfit]
        omega
      · rw [SumsFit.of_sameBlock hsame]
        rw [add_of_fits hfit]
        exact hdone.rest
    | some t =>
      refine ⟨?_, ?_, fun hvalid => by simp at hvalid⟩
      · simp only [failedBy_sums, failedBy_blockFees]
        exact forall_mem_append.mpr ⟨forall_mem_append.mpr ⟨h.sums, hsums⟩, by simpa using hfit⟩
      · simp only [failedBy_blockFees, add_of_fits hfit]
        omega

theorem checkChunks_fits (split : ChunkSplit) {order : List ℕ} {utxo : UnspentOutputDatabase}
    (hout : ∀ tx ∈ st.block.vtx, ∀ o ∈ tx.vout, MoneyRange o.nValue)
    (h : BlockFits out env st H (order.flatMap (st.chunkTxs split)) utxo) :
    BlockFits out env (checkChunks env H split order (utxo, st)).2 H []
      (checkChunks env H split order (utxo, st)).1 := by
  induction order generalizing st utxo with
  | nil => exact h
  | cons k order ih =>
    have hsame := @sameBlock_checkSignaturesChunk env H st split k utxo
    have hstep := checkSignaturesChunk_fits hval hv split k hout h
    set r := st.checkSignaturesChunk env H split k utxo with hr
    have hval' : r.2.flags.enableValidation := by rw [hsame.flags]; exact hval
    have hv' : r.2.checkValidityOnly = false := hsame.checkValidityOnly.trans hv
    have hout' : ∀ tx ∈ r.2.block.vtx, ∀ o ∈ tx.vout, MoneyRange o.nValue := by
      rw [hsame.block]; exact hout
    rw [← funext (hsame.chunkTxs split)] at hstep
    exact ih hval' hv' hout' hstep

end

/-- All sums of both stages fit if those over inputs and the fees do. -/
theorem checkBlock_fits (hst : st.Fresh) (hval : st.flags.enableValidation) (hsums : st.sums = [])
    (split : ChunkSplit) (order : List ℕ) {utxo : UnspentOutputDatabase} {outs : List TxOutputs}
    (hwalk : blockOutputs st.flags.hf201811Active st.block = .ok outs)
    (hout : ∀ tx ∈ st.block.vtx, ∀ o ∈ tx.vout, MoneyRange o.nValue)
    (hsnd : Sound out env (spendable H outs utxo))
    (hfit : st.SumsFit out env H 0 (st.scheduled split order) (spendable H outs utxo)) :
    (∀ x ∈ (st.checkBlock env H false split order utxo).2.sums, Wrap64.Fits x) ∧
      0 ≤ (st.checkBlock env H false split order utxo).2.blockFees := by
  have hstart : SameBlock st (st.startChunks split.chunks) := ⟨rfl, rfl, rfl, rfl, rfl, rfl, rfl⟩
  have hzero : (st.startChunks split.chunks).blockFees = 0 := hst.fees
  have hbegin : BlockFits out env (st.startChunks split.chunks) H
      (order.flatMap ((st.startChunks split.chunks).chunkTxs split))
      (utxo.insertAll st.blockId ⟨H, outs⟩) := by
    refine ⟨?_, ?_, fun _ => ⟨hsnd, ?_⟩⟩
    · rw [show (st.startChunks split.chunks).sums = [] from hsums]
      simp
    · rw [hzero]
      decide
    · rw [SumsFit.of_sameBlock hstart, hzero, funext (hstart.chunkTxs split)]
      exact hfit
  have hend := @checkChunks_fits out env (st.startChunks split.chunks) H hval hst.toAppend split
    order _ hout
    hbegin
  rw [checkBlock_of_ok hst.toAppend hwalk]
  exact ⟨hend.sums, hend.fees.1⟩

/-- As long as no input sum reaches `2^63`, the fees are what transactions that pass charge. -/
theorem sumsFit_of_passes (hval : st.flags.enableValidation) {fees : ℤ}
    (hsnd : Sound out env bag) (hpass : st.Passes env H txs bag res)
    (hin : ∀ r ∈ res, value out r.spent < 2 ^ 63) (hfees : fees + (res.map (charged out)).sum < 2 ^ 63) :
    st.SumsFit out env H fees txs bag := by
  induction txs generalizing bag res fees with
  | nil => trivial
  | cons t txs ih =>
    obtain ⟨hres, hsome⟩ := hpass
    obtain ⟨us, rs, hus, hrs, rfl⟩ := resolveTxs_cons_eq_some.mp hres
    obtain ⟨hhead, htail⟩ := forall_mem_cons.mp hsome
    obtain ⟨hlt, hin⟩ := forall_mem_cons.mp hin
    obtain ⟨hsub, hsub'⟩ := subset_of_resolve hus
    have hchg : charged out ⟨t.1, t.2, us⟩ = exactFee out t us := by
      unfold charged exactFee
      dsimp only at hlt ⊢
      rw [wrap_eq_self ⟨by have := value_nonneg (hsnd.subset hsub).nonneg; omega, hlt⟩]
    have hrest : st.Passes env H txs (spending.left (inputsOf t) bag) rs := ⟨hrs, htail⟩
    have hlat := sum_nonneg (hrest.charged_nonneg (hsnd.subset hsub') hval)
    rw [map_cons, sum_cons, hchg] at hfees
    intro vs hvs
    cases hus.symm.trans hvs
    refine ⟨fun _ => hlt, fun _ => ⟨by omega, ?_⟩⟩
    exact ih (hsnd.subset hsub') hrest hin (by omega)

theorem lost_eq_zero {r : ResolvedTx} (hpos : 0 ≤ value out r.spent) (hlt : lost out r < 2 ^ 64) :
    lost out r = 0 := by
  obtain ⟨k, hk, heq⟩ := wrap_eq_sub_mul_of_nonneg hpos
  unfold lost at hlt ⊢
  omega

/-- What a block that passes spends must come from somewhere, so its sums are small. -/
theorem passes_small (hval : st.flags.enableValidation) {base : List UnspentOutput}
    (hwalk : st.block.WalkAgrees) (hnames : Names out st.block)
    (hchecked : ∀ tx ∈ st.block.vtx, checkTransaction tx = .ok ())
    (htxs : txs ~ st.block.vtx.zipIdx) (hbase : value out base ≤ MAX_MONEY)
    (hsnd : Sound out env (base ++ BlockData.records ⟨H, st.block.walk.map txOutputs⟩))
    (hpass : st.Passes env H txs (base ++ BlockData.records ⟨H, st.block.walk.map txOutputs⟩) res) :
    (∀ r ∈ res, value out r.spent < 2 ^ 63) ∧ (res.map (charged out)).sum ≤ 2 * MAX_MONEY := by
  set bag := base ++ BlockData.records ⟨H, st.block.walk.map txOutputs⟩
  obtain ⟨hrsl, hsp⟩ := resolveTxs_iff.mp hpass.1
  obtain ⟨-, hsub'⟩ := subset_of_resolve hrsl
  have hspt := hpass.sound hsnd
  have hbalance : value out (spending.left (txs.flatMap inputsOf) bag) + (res.map (charged out)).sum +
      (res.map (lost out)).sum = value out base + coinbaseValue st.block :=
    block_balance hwalk hnames (fun tx htx => (checkTransaction_outputs (hchecked tx htx)).1)
      htxs hpass.1
  have hleft : 0 ≤ value out (spending.left (txs.flatMap inputsOf) bag) :=
    value_nonneg (hsnd.subset hsub').nonneg
  have hcb : coinbaseValue st.block ≤ MAX_MONEY := by
    unfold coinbaseValue
    cases hvtx : st.block.vtx with
    | nil => decide
    | cons tx rest =>
      have htx : tx ∈ st.block.vtx := by rw [hvtx]; exact mem_cons_self
      exact (moneyRange_iff.mp (checkTransaction_outputs (hchecked tx htx)).2.2).2
  have hlost := hpass.lost_nonneg hsnd
  have hsum1 := sum_nonneg (hpass.charged_nonneg hsnd hval)
  have hsum2 := sum_nonneg hlost
  refine ⟨fun r hr => ?_, by omega⟩
  have hle : lost out r ≤ (res.map (lost out)).sum := single_le_sum hlost _ (mem_map_of_mem hr)
  have hmax : 2 * MAX_MONEY < 2 ^ 64 := by decide
  have hzero := lost_eq_zero (value_nonneg (hspt r hr).nonneg) (by omega)
  have hfit := (fits_wrap (value out r.spent)).2
  unfold lost at hzero
  omega

end BlockValidationState

end FloweeHub.Validation
