import FloweeHub.Validation.BlockRules
import FloweeHub.Validation.TxValidation

/-! Coinbase outputs must not be spent before they are a hundred blocks old. The check depends on a
flag that `checkSignaturesChunk` never sets. Proved is when it is made nevertheless. -/

namespace FloweeHub

open Lib Lib.Guards List
open scoped List

/-- A coinbase output is old enough to be spent in a block at `blockHeight`. -/
def UnspentOutput.Mature (blockHeight : ℤ) (u : UnspentOutput) : Prop :=
  u.isCoinbase = true → Validation.COINBASE_MATURITY ≤ blockHeight - u.blockHeight

instance (blockHeight : ℤ) (u : UnspentOutput) : Decidable (u.Mature blockHeight) :=
  inferInstanceAs (Decidable (_ → _))

namespace Validation

variable {verify : VerifyScript} {tx : Transaction} {flags : ScriptFlags} {i : ℕ} {H : ℤ}
  {ps : List PrevOut}

/-! ### A loose transaction that spends too early -/

def prematureSpend : Thrown := .exception (.invalid "bad-txns-premature-spend-of-coinbase" 100)

theorem checkInputScript_ne_premature {p : PrevOut} :
    checkInputScript verify tx flags i p ≠ .error prematureSpend := by
  have hm : ∀ what, mandatoryFailure what ≠ prematureSpend := fun what h => by
    simp only [mandatoryFailure, prematureSpend, Exception.invalid, Thrown.exception.injEq,
      Exception.mk.injEq] at h
    have := congrArg String.toList h.1
    simp at this
  have hn : ∀ what, nonMandatoryFailure what ≠ prematureSpend := fun what h => by
    simp [nonMandatoryFailure, prematureSpend, Exception.invalid, Exception.rejected] at h
  unfold checkInputScript
  split
  · simp
  · split_ifs
    · split
      · simpa using hn _
      · simpa using hm _
    · simpa using hm _

theorem invalid_ne_premature {error : String} {punishment : ℕ}
    (h : error ≠ "bad-txns-premature-spend-of-coinbase") :
    Thrown.exception (.invalid error punishment) ≠ prematureSpend := by
  simp [prematureSpend, Exception.invalid, h]

theorem checkInputs_premature (h : checkInputs verify tx H flags i ps = .error prematureSpend) :
    ∃ p ∈ ps, ¬ p.Mature H := by
  induction ps generalizing i with
  | nil => cases h
  | cons p ps ih =>
    simp only [checkInputs, throwInvalid, ite_error_eq_error_iff, bind_eq_error_iff,
      checkInputScript_ne_premature, false_or] at h
    rcases h with ⟨hguard, -⟩ | ⟨-, ⟨-, heq⟩ | ⟨-, n, -, hrest | ⟨r, -, hok⟩⟩⟩
    · exact ⟨p, mem_cons_self, by simpa [PrevOut.Mature] using hguard⟩
    · exact absurd heq (invalid_ne_premature (by decide))
    · obtain ⟨q, hq, hnot⟩ := ih hrest
      exact ⟨q, mem_cons_of_mem _ hq, hnot⟩
    · cases hok

theorem validateTransactionInputs_premature {flags : ValidationFlags} {requireStandard : Bool}
    (h : validateTransactionInputs verify tx ps H flags requireStandard = .error prematureSpend) :
    ∃ p ∈ ps, ¬ p.Mature H := by
  rcases bind_eq_error_iff.mp h with hout | ⟨valueOut, -, h⟩
  · cases hv : tx.GetValueOut <;> rw [hv] at hout <;> cases hout
  · simp only [throwInvalid, ite_error_eq_error_iff, bind_eq_error_iff] at h
    rcases h with ⟨-, heq⟩ | ⟨-, ⟨-, heq⟩ | ⟨-, ⟨-, heq⟩ | ⟨-, ⟨-, heq⟩ | ⟨-, hin | ⟨r, -, hok⟩⟩⟩⟩⟩
    iterate 4
      · exact absurd heq (invalid_ne_premature (by decide))
    · exact checkInputs_premature hin
    · cases hok

theorem checkOutputs_ne_premature (nValueOut : ℤ) (vout : List TxOut) :
    checkOutputs nValueOut vout ≠ .error prematureSpend := by
  induction vout generalizing nValueOut with
  | nil => intro h; cases h
  | cons o vout ih =>
    intro h
    simp only [checkOutputs, throwInvalid, ite_error_eq_error_iff] at h
    rcases h with ⟨-, heq⟩ | ⟨-, ⟨-, heq⟩ | ⟨-, ⟨-, heq⟩ | ⟨-, hrest⟩⟩⟩
    iterate 3
      · exact invalid_ne_premature (by decide) heq
    · exact ih _ hrest

theorem checkTransaction_ne_premature (tx : Transaction) :
    checkTransaction tx ≠ .error prematureSpend := by
  intro h
  simp only [checkTransaction, throwInvalid, ite_error_eq_error_iff, bind_eq_error_iff,
    checkOutputs_ne_premature, false_or] at h
  rcases h with ⟨-, heq⟩ | ⟨-, ⟨-, heq⟩ | ⟨-, ⟨-, heq⟩ | ⟨-, _, -, ⟨-, heq⟩ | ⟨-, hrest⟩⟩⟩⟩
  iterate 4
    · exact invalid_ne_premature (by decide) heq
  · split at hrest
    all_goals
      rcases ite_error_eq_error_iff.mp hrest with ⟨-, heq⟩ | ⟨-, hok⟩
      · exact invalid_ne_premature (by decide) heq
      · cases hok

namespace Engine

variable {e : Engine} {m : MempoolEnv} {params : Params} {o : PrevOut}

theorem rejected_ne_premature (reason : String) (code : RejectCode) :
    Thrown.exception (.rejected reason code 0) ≠ prematureSpend := by
  simp [prematureSpend, Exception.invalid, Exception.rejected]

theorem mempoolPrevOut_ne_premature (txin : TxIn) : e.mempoolPrevOut m txin ≠ .error prematureSpend := by
  intro h
  rcases bind_eq_error_iff.mp h with hout | ⟨o, -, hrest⟩
  · split at hout
    · unfold prevOutInMempool at hout
      split at hout
      · exact invalid_ne_premature (by decide) (Except.error.inj hout)
      · cases hout
    · unfold prevOutInUtxo at hout
      split at hout
      · exact invalid_ne_premature (by decide) (Except.error.inj hout)
      · split at hout
        · cases hout
        · rcases ite_error_eq_error_iff.mp hout with ⟨-, heq⟩ | ⟨-, hok⟩
          · exact invalid_ne_premature (by decide) heq
          · cases hok
  · rcases ite_error_eq_error_iff.mp hrest with ⟨-, heq⟩ | ⟨-, hok⟩
    · exact rejected_ne_premature _ _ heq
    · cases hok

/-- The flag and the height of a previous output are those of the record it was read by. -/
theorem mempoolPrevOut_coinbase {txin : TxIn} (h : e.mempoolPrevOut m txin = .ok o) (hc : o.isCoinbase) :
    ∃ u, e.utxo.find txin.toInput = some u ∧ u.isCoinbase ∧ u.blockHeight = o.blockheight := by
  obtain ⟨o', ho', hrest⟩ := bind_eq_ok_iff.mp h
  obtain ⟨-, ⟨⟩⟩ := ite_error_eq_ok_iff.mp hrest
  split at ho'
  · unfold prevOutInMempool at ho'
    split at ho'
    · cases ho'
    · cases ho'
      cases hc
  · unfold prevOutInUtxo at ho'
    split at ho'
    · cases ho'
    next u hu =>
      split at ho'
      · cases ho'
      · obtain ⟨-, ⟨⟩⟩ := ite_error_eq_ok_iff.mp ho'
        exact ⟨u, hu, hc, rfl⟩

theorem mempoolPrevOuts_ne_premature (vin : List TxIn) :
    e.mempoolPrevOuts m vin ≠ .error prematureSpend := by
  induction vin with
  | nil => intro h; cases h
  | cons txin vin ih =>
    intro h
    rcases bind_eq_error_iff.mp h with hhead | ⟨o, -, hrest⟩
    · exact mempoolPrevOut_ne_premature txin hhead
    · rcases bind_eq_error_iff.mp hrest with htail | ⟨os, -, hok⟩
      · exact ih htail
      · cases hok

theorem mempoolPrevOuts_mem {vin : List TxIn} {os : List PrevOut} (h : e.mempoolPrevOuts m vin =
    .ok os) (ho : o ∈ os) : ∃ txin ∈ vin, e.mempoolPrevOut m txin = .ok o := by
  induction vin generalizing os with
  | nil => cases h; cases ho
  | cons txin vin ih =>
    obtain ⟨o1, h1, hrest⟩ := bind_eq_ok_iff.mp h
    obtain ⟨os', hos', ⟨⟩⟩ := bind_eq_ok_iff.mp hrest
    rcases mem_cons.mp ho with rfl | ho
    · exact ⟨txin, mem_cons_self, h1⟩
    · obtain ⟨t, ht, hto⟩ := ih hos' ho
      exact ⟨t, mem_cons_of_mem _ ht, hto⟩

theorem checkOnTip_premature {tip : IndexPtr} {tx : Transaction}
    (h : e.checkOnTip m params tip tx = .error prematureSpend) :
    ∃ txin ∈ tx.vin, ∃ u, e.utxo.find txin.toInput = some u ∧ ¬ u.Mature ((e tip).nHeight + 1) := by
  simp only [checkOnTip, throwNonstandard, ite_error_eq_error_iff, bind_eq_error_iff,
    mempoolPrevOuts_ne_premature, false_or] at h
  rcases h with ⟨-, heq⟩ |
    ⟨-, ⟨-, heq⟩ | ⟨-, os, hos, ⟨-, heq⟩ | ⟨-, hin | ⟨r, -, ⟨-, heq⟩ | ⟨-, hok⟩⟩⟩⟩⟩
  iterate 3
    · exact absurd heq (rejected_ne_premature _ _)
  · obtain ⟨o, ho, hnot⟩ := validateTransactionInputs_premature hin
    obtain ⟨txin, htxin, hto⟩ := mempoolPrevOuts_mem hos ho
    simp only [PrevOut.Mature, not_forall] at hnot
    obtain ⟨hc, hyoung⟩ := hnot
    obtain ⟨u, hu, huc, hh⟩ := mempoolPrevOut_coinbase hto hc
    exact ⟨txin, htxin, u, hu, fun hmature => hyoung (hh ▸ hmature huc)⟩
  · exact absurd heq (rejected_ne_premature _ _)
  · cases hok

/-- Only if one of its inputs has a record of a coinbase output that is too young. -/
theorem checkLooseTransaction_premature {tx : Transaction}
    (h : e.checkLooseTransaction m params tx = .error prematureSpend) :
    ∃ tip, e.tip = some tip ∧ ∃ txin ∈ tx.vin, ∃ u, e.utxo.find txin.toInput = some u ∧
      ¬ u.Mature ((e tip).nHeight + 1) := by
  simp only [checkLooseTransaction, throwInvalid, ite_error_eq_error_iff, bind_eq_error_iff,
    checkTransaction_ne_premature, false_or] at h
  rcases h with ⟨-, heq⟩ | ⟨-, _, -, ⟨-, heq⟩ | ⟨-, hrest⟩⟩
  · exact absurd heq (invalid_ne_premature (by decide))
  · exact absurd heq (invalid_ne_premature (by decide))
  · split at hrest
    · exact absurd (Except.error.inj hrest) (rejected_ne_premature _ _)
    · rcases ite_error_eq_error_iff.mp hrest with ⟨-, heq⟩ | ⟨-, hrest⟩
      · exact absurd heq (rejected_ne_premature _ _)
      · split at hrest
        · cases hrest
        next tip htip =>
          rcases bind_eq_error_iff.mp hrest with hon | ⟨r, -, hok⟩
          · exact ⟨tip, htip, checkOnTip_premature hon⟩
          · cases hok

open BlockValidationState

variable {s : StateId} {st : BlockValidationState} {p : IndexPtr} {split : ChunkSplit} {order : List ℕ}

/-- The records that were taken out of the unspent outputs between two states. -/
def spentBetween (e e₁ : Engine) : List UnspentOutput :=
  UnspentOutputDatabase.removed (e₁.utxo.pending.drop e.utxo.pending.length)

/-- A block that is appended spends mature outputs only, and one with a transaction refused as too
early is not appended. -/
structure MaturityEnforced (params : Params) (st : BlockValidationState) (p : IndexPtr)
    (e e₁ e' : Engine) :
    Prop where
  mature : Appended st p e₁ e' → ∀ u ∈ spentBetween e e₁, u.Mature (e p).nHeight
  refused : ∀ m tx tip, tx ∈ st.block.vtx.tail → e.tip = some tip → (e tip).nHeight = (e p).nHeight - 1 →
    e.checkLooseTransaction m params tx = .error prematureSpend → ¬ Appended st p e₁ e'

/-- The records a block takes out are those its inputs resolve to. -/
theorem spentBetween_of_rules {outs : List TxOutputs} {res : List ResolvedTx} (hst : st.Fresh)
    (hs : e.states s = some st) (hp : st.blockIndex = some p) (hpar : (e p).pprev ≠ none)
    (hrl : BlockRules params st p split order e outs res) :
    spentBetween e (e.checkBlock params s split order) = res.flatMap ResolvedTx.spent := by
  rw [checkBlock_eq hs hp, decide_eq_false hpar]
  rcases checkBlock_cases hst (e.checkEnv params p) (e p).nHeight split order e.utxo with
    ⟨outputs', res', hout, hpass, hps⟩ | ⟨hno, -⟩
  · obtain ⟨rfl, rfl⟩ := hrl.unique hout hpass
    have hspt := (resolveTxs_iff.mp hpass.1).1
    simp only [spentBetween, hps.utxo, hpass.spentOutpoints]
    rw [pending_removeAll hspt]
    simp [UnspentOutputDatabase.insertAll, UnspentOutputDatabase.addRecords]
  · exact absurd hrl.passes (hno outs res hrl.walked)

/-- Exactly if the block spends mature outputs only or breaks another rule. -/
theorem validateBlock_mature_iff {e' : Engine} (hst : st.Fresh) (hrun : e.shuttingDown = false)
    (hs : e.states s = some st) (hp : st.blockIndex = some p) (hparent : (e p).pprev ≠ none)
    (hcovers : split.Covers st.block.vtx.length) (horder : order ~ range split.chunks)
    (h : validateBlock params s split order e = .ok e') :
    MaturityEnforced params st p e (e.checkBlock params s split order) e' ↔
      ∀ outs res, BlockRules params st p split order e outs res →
        ∀ r ∈ res, ∀ u ∈ r.spent, u.Mature (e p).nHeight := by
  have happ := validateBlock_appended_iff hst hrun hs hp hparent h
  constructor
  · intro henf outs res hrl r hr u hu
    refine henf.mature (happ.mpr ⟨outs, res, hrl⟩) u ?_
    rw [spentBetween_of_rules hst hs hp hparent hrl]
    exact mem_flatMap.mpr ⟨r, hr, hu⟩
  · intro hcond
    refine ⟨fun hdone u hu => ?_, fun m tx tip htx htip hht hloose hdone => ?_⟩
    · obtain ⟨outs, res, hrl⟩ := happ.mp hdone
      rw [spentBetween_of_rules hst hs hp hparent hrl] at hu
      obtain ⟨r, hr, hu⟩ := mem_flatMap.mp hu
      exact hcond outs res hrl r hr u hu
    · obtain ⟨outs, res, hrl⟩ := happ.mp hdone
      obtain ⟨tip', htip', txin, htxin, u, hu, hyoung⟩ := checkLooseTransaction_premature hloose
      rw [htip] at htip'
      cases htip'
      rw [hht, sub_add_cancel] at hyoung
      -- the record is still there when the block is checked, so some input of the block takes it
      have hmem : u ∈ res.flatMap ResolvedTx.spent := by
        refine Supply.mem_of_resolve_bag (resolveTxs_iff.mp hrl.passes.1).1 (k := txin.toInput) ?_ ?_
        · obtain ⟨k, hk, hmem⟩ := mem_zipIdx_of_mem_tail htx
          refine mem_flatMap.mpr ⟨(tx, k), (scheduled_perm hst.toAppend hcovers horder).mem_iff.mpr
            hmem, ?_⟩
          rw [inputsOf, if_neg hk.ne']
          exact mem_map_of_mem htxin
        · exact KeyedBag.lookup_append_of_some hu
      obtain ⟨r, hr, hur⟩ := mem_flatMap.mp hmem
      exact hyoung (hcond outs res hrl r hr u hur)

/-- A block that spends its own coinbase is appended. -/
theorem validateBlock_not_mature :
    ∃ e', validateBlock sampleParams 0 ⟨1, 2⟩ [0]
        (sampleEngine [] (sampleState [sampleCoinbase (50 * COIN), sampleSpend])) = .ok e' ∧
      e'.blockchain = some 1 ∧ e'.utxo.committed = [⟨4, 0, 1, 181⟩] ∧
      ¬ MaturityEnforced sampleParams (sampleState [sampleCoinbase (50 * COIN), sampleSpend]) 1
        (sampleEngine [] (sampleState [sampleCoinbase (50 * COIN), sampleSpend]))
        ((sampleEngine [] (sampleState [sampleCoinbase (50 * COIN), sampleSpend])).checkBlock
          sampleParams 0 ⟨1, 2⟩ [0])
        e' := by
  refine ⟨_, rfl, by decide, by decide, fun henf => ?_⟩
  have hspt : ∀ u ∈ spentBetween _ _, u.Mature 1 := henf.mature ⟨rfl, rfl⟩
  revert hspt
  decide

theorem validateBlock_mature_iff_sample :
    ∃ e', validateBlock sampleParams 0 ⟨2, 1⟩ [1, 0] beforeSpending = .ok e' ∧
      e'.blockchain = some 1 ∧
      (MaturityEnforced sampleParams sampleSpending 1 beforeSpending
          (beforeSpending.checkBlock sampleParams 0 ⟨2, 1⟩ [1, 0]) e' ↔
        ∀ outs res, BlockRules sampleParams sampleSpending 1 ⟨2, 1⟩ [1, 0] beforeSpending outs res →
          ∀ r ∈ res, ∀ u ∈ r.spent, u.Mature 1) := by
  refine ⟨_, rfl, by decide, ?_⟩
  exact validateBlock_mature_iff ⟨rfl, rfl, rfl, rfl⟩ rfl rfl rfl (by decide) (by decide) (.swap ..) rfl

end Engine

end Validation

end FloweeHub
