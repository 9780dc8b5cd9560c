import Mathlib.Data.Nat.ModEq
import FloweeHub.Validation.Atomicity
import FloweeHub.Validation.Resolution

/-! When a block passes. The chunks may finish in any order; together they pass exactly when the
transactions, in that order, can be resolved one after the other and all pass. -/

namespace FloweeHub.Validation

open Lib UnspentOutputDatabase ChunkVars Wrap64 UnspentOutput List Nat Function
open scoped List

/-- The records of the unspent outputs; one without a valid height can not be spent. -/
def spending : Supply TxInput UnspentOutput (List UnspentOutput) := Supply.bag outpoint fun u =>
    0 < u.blockHeight

variable {i : TxInput}

theorem find_spending {bag : List UnspentOutput} {u : UnspentOutput} :
    spending.find i bag = some u ↔ KeyedBag.lookup outpoint i bag = some u ∧ 0 < u.blockHeight :=
  Supply.find_bag_eq_some

/-- When no outpoint is spent twice, inputs are resolved against the records at the start. -/
theorem resolveTxs_spending_iff {txs : List (Transaction × ℕ)} {bag : List UnspentOutput}
    {res : List ResolvedTx} (hn : (txs.flatMap inputsOf).Nodup) :
    resolveTxs spending txs bag = some res ↔
      Located (fun i => KeyedBag.lookup outpoint i bag) txs res ∧ ∀ r ∈ res, ∀ u ∈ r.spent,
        0 < u.blockHeight := by
  rw [resolveTxs_iff, spending, Supply.resolve_bag_iff_of_nodup hn, located_iff]
  simp only [mem_flatMap, forall_exists_index, and_imp]
  constructor
  · rintro ⟨⟨hall, hpos⟩, hsp⟩
    exact ⟨⟨hall, hsp⟩, fun r hr u hu => hpos u r hr hu⟩
  · rintro ⟨⟨hall, hsp⟩, hpos⟩
    exact ⟨⟨hall, fun u r hr hu => hpos r hr u hu⟩, hsp⟩

def undoItem (u : UnspentOutput) : UndoItem := ⟨u.prevTxId, u.outIndex, u.blockHeight, u.offsetInBlock⟩

/-- Take the record out and remember how to put it back. -/
def ChunkVars.spend (owner : Uint256) (c : ChunkVars) (u : UnspentOutput) : ChunkVars :=
  { c with
    utxo := (c.utxo.remove owner u.outpoint).2
    undoItems := c.undoItems ++ [undoItem u] }

namespace BlockValidationState

variable {env : CheckEnv} {st st' : BlockValidationState} {H : ℤ}

theorem spendFromUtxo_ok_iff {c c' : ChunkVars} {s : SpentVars} :
    st.spendFromUtxo env i c = (c', .ok s) ↔
      ∃ u ps, spending.find i c.utxo.working = some u ∧ st.prevOut env u = .ok ps ∧
        s = ⟨[u.blockHeight], ps⟩ ∧ c' = c.spend st.blockId u := by
  simp only [find_spending]
  unfold spendFromUtxo
  cases hf : c.utxo.find i with
  | none =>
    constructor
    · rintro ⟨⟩
    · rintro ⟨u, ps, ⟨hu, -⟩, -⟩
      cases hf.symm.trans hu
  | some u =>
    obtain rfl : u.outpoint = i := KeyedBag.key_of_lookup hf
    have huniq : ∀ u', KeyedBag.lookup outpoint u.outpoint c.utxo.working = some u' → u = u' :=
      fun u' hu' => Option.some.inj (hf.symm.trans hu')
    cases hp : st.prevOut env u with
    | error t =>
      simp only [hp]
      constructor
      · rintro ⟨⟩
      · rintro ⟨u', ps, ⟨hu', -⟩, hps, -⟩
        obtain rfl := huniq u' hu'
        rw [hp] at hps
        cases hps
    | ok ps =>
      have hrec : (c.utxo.remove st.blockId u.outpoint).1 = ⟨u.blockHeight, u.offsetInBlock⟩ := by
        rw [remove_of_find hf]
      simp only [hp, hrec, SpentOutput.isValid, decide_eq_true_eq]
      by_cases hh : 0 < u.blockHeight
      · rw [if_pos hh]
        constructor
        · rintro ⟨⟩
          exact ⟨u, ps, ⟨hf, hh⟩, hp, rfl, rfl⟩
        · rintro ⟨u', ps', ⟨hu', -⟩, hps, rfl, rfl⟩
          obtain rfl := huniq u' hu'
          rw [hp] at hps
          cases hps
          rfl
      · rw [if_neg hh]
        constructor
        · rintro ⟨⟩
        · rintro ⟨u', ps', ⟨hu', h'⟩, -⟩
          obtain rfl := huniq u' hu'
          exact absurd h' hh

variable (env H) in
/-- A block that is to be appended spends from the working map. -/
theorem spendsFrom_utxo (hv : st.checkValidityOnly = false) :
    st.SpendsFrom env H spending (fun c => c.utxo.working) (spend st.blockId) fun _ => True where
  spend := by
    intro i c c' s _
    rw [spendInput, hv]
    exact spendFromUtxo_ok_iff
  after := by
    intro i c u _ hu
    obtain rfl : u.outpoint = i := KeyedBag.key_of_lookup (find_spending.mp hu).1
    exact ⟨trivial, working_remove _⟩
  frame := fun hutxo _ _ => ⟨id, by rw [hutxo]⟩

variable (env st H) in
def fees (res : List ResolvedTx) : List ℤ :=
  res.filterMap fun r => ((st.txResult env H r).getD none).map Prod.fst

variable (env st H) in
def sigChecks (res : List ResolvedTx) : List ℕ :=
  res.filterMap fun r => ((st.txResult env H r).getD none).map Prod.snd

/-- The undo items of a transaction: first what it spent, then what it made. -/
def undoItemsOf (r : ResolvedTx) : List UndoItem := r.spent.map undoItem ++ outputItems r.tx

def spentOutpoints (res : List ResolvedTx) : List TxInput := (res.flatMap ResolvedTx.spent).map outpoint

theorem spendAll_eq (us : List UnspentOutput) (c : ChunkVars) :
    us.foldl (spend st.blockId) c =
      { c with
        utxo := c.utxo.removeAll st.blockId (us.map outpoint)
        undoItems := c.undoItems ++ us.map undoItem } := by
  induction us generalizing c with
  | nil => simp
  | cons u us ih =>
    rw [foldl_cons, ih]
    simp [spend]

variable (env st H) in
/-- What transactions that have passed add to the variables of their chunk. -/
structure Added (res : List ResolvedTx) (c c' : ChunkVars) : Prop where
  utxo : c'.utxo = c.utxo.removeAll st.blockId (spentOutpoints res)
  undoItems : c'.undoItems = c.undoItems ++ res.flatMap undoItemsOf
  fees : c'.chunkFees = sumFrom c.chunkFees (st.fees env H res)
  sigChecks : c'.chunkSigChecks ≡ c.chunkSigChecks + (st.sigChecks env H res).sum [MOD 2 ^ 32]

theorem Added.trans {xs ys : List ResolvedTx} {c c' c'' : ChunkVars} (h1 : st.Added env H xs c c')
    (h2 : st.Added env H ys c' c'') : st.Added env H (xs ++ ys) c c'' where
  utxo := by
    rw [h2.utxo, h1.utxo, ← removeAll_append]
    simp [spentOutpoints]
  undoItems := by rw [h2.undoItems, h1.undoItems, append_assoc, flatMap_append]
  fees := by
    rw [h2.fees, h1.fees]
    simp [sumFrom, BlockValidationState.fees]
  sigChecks := by
    have hsum := h2.sigChecks.trans (h1.sigChecks.add_right _)
    rwa [add_assoc, ← List.sum_append, BlockValidationState.sigChecks,
      BlockValidationState.sigChecks, ← filterMap_append] at hsum

section

variable (env H) (hv : st.checkValidityOnly = false)
include hv

theorem added_passTx (c : ChunkVars) (r : ResolvedTx) :
    st.Added env H [r] c (st.passTx env H (spend st.blockId) c r) := by
  unfold passTx
  rw [spendAll_eq]
  cases hr : (st.txResult env H r).getD none with
  | none => constructor <;> simp [finishTx, hv, hr, undoItemsOf, fees, sigChecks, spentOutpoints, Nat.ModEq.refl]
  | some f => constructor <;> simp [finishTx, hv, hr, undoItemsOf, fees, sigChecks, spentOutpoints, mod_modEq]

theorem added_passTxs (res : List ResolvedTx) (c : ChunkVars) :
    st.Added env H res c (res.foldl (st.passTx env H (spend st.blockId)) c) := by
  induction res generalizing c with
  | nil => constructor <;> simp [spentOutpoints, fees, sigChecks, Nat.ModEq.refl]
  | cons r res ih =>
    exact (added_passTx env H hv c r).trans (ih _)

end

section

variable (hflg : st'.flags = st.flags) (hfees : st'.fetchFees = st.fetchFees)
include hflg hfees

theorem prevOuts_congr : st'.prevOuts env = st.prevOuts env := by
  funext us
  induction us with
  | nil => rfl
  | cons u us ih => simp [prevOuts, ih, prevOut, hflg, hfees]

/-- Of the state, the checks of a transaction only read the flags. -/
theorem txResult_congr : st'.txResult env H = st.txResult env H := by
  funext r
  simp [txResult, prevOuts_congr hflg hfees, checkFees, hflg, hfees]

end

theorem SameBlock.txResult (h : SameBlock st st') : st'.txResult env H = st.txResult env H :=
  txResult_congr h.flags h.fetchFees

theorem SameBlock.chunkTxs (h : SameBlock st st') (split : ChunkSplit) (k : ℕ) :
    st'.chunkTxs split k = st.chunkTxs split k := by
  simp [BlockValidationState.chunkTxs, h.block, h.checkValidityOnly]

variable (env st H) {txs : List (Transaction × ℕ)} {bag : List UnspentOutput} {res : List ResolvedTx} in
/-- The transactions can be resolved to `res`, one after the other, and they all pass. -/
def Passes (txs : List (Transaction × ℕ)) (bag : List UnspentOutput) (res : List ResolvedTx) : Prop :=
  resolveTxs spending txs bag = some res ∧ ∀ r ∈ res, (st.txResult env H r).isSome

theorem Passes.of_sameBlock (h : SameBlock st st') : st'.Passes env H txs bag res ↔
      st.Passes env H txs bag res := by
  unfold Passes
  rw [h.txResult]

theorem passes_append {xs ys : List (Transaction × ℕ)} : st.Passes env H (xs ++ ys) bag res ↔
      ∃ vs ws, st.Passes env H xs bag vs ∧
        st.Passes env H ys (spending.left (xs.flatMap inputsOf) bag) ws ∧ res = vs ++ ws := by
  unfold Passes
  rw [resolveTxs_append_eq_some]
  constructor
  · rintro ⟨⟨vs, ws, hvs, hws, rfl⟩, hpass⟩
    exact ⟨vs, ws, ⟨hvs, fun r hr => hpass r (mem_append_left _ hr)⟩,
      ⟨hws, fun r hr => hpass r (mem_append_right _ hr)⟩, rfl⟩
  · rintro ⟨vs, ws, ⟨hvs, hv⟩, ⟨hws, hw⟩, rfl⟩
    exact ⟨⟨vs, ws, hvs, hws, rfl⟩, forall_mem_append.mpr ⟨hv, hw⟩⟩

theorem Passes.spentOutpoints (h : st.Passes env H txs bag res) :
    spentOutpoints res = txs.flatMap inputsOf :=
  (Supply.perm_of_resolve_bag (resolveTxs_iff.mp h.1).1).1

variable (env st H) in
/-- The block after all its chunks have passed. -/
structure Passed (utxo : UnspentOutputDatabase) (res : List ResolvedTx)
    (r : UnspentOutputDatabase × BlockValidationState) : Prop where
  same : SameBlock st r.2
  valid : r.2.status.invalid = false
  utxo : r.1 = utxo.removeAll st.blockId (BlockValidationState.spentOutpoints res)
  fees : r.2.blockFees = wrap (st.blockFees + (st.fees env H res).sum)
  sigChecks : r.2.sigChecksCounted = (st.sigChecksCounted + (st.sigChecks env H res).sum) % 2 ^ 32

theorem Passed.working {utxo : UnspentOutputDatabase}
    {r : UnspentOutputDatabase × BlockValidationState} (h : st.Passed env H utxo res r)
    (hpass : st.Passes env H txs utxo.working res) :
    r.1.working = spending.left (txs.flatMap inputsOf) utxo.working := by
  rw [h.utxo, working_removeAll, hpass.spentOutpoints]
  exact (Supply.left_bag _ _).symm

theorem SameBlock.fees (h : SameBlock st st') (res : List ResolvedTx) :
    st'.fees env H res = st.fees env H res := by
  unfold BlockValidationState.fees
  rw [h.txResult]

theorem SameBlock.sigChecks (h : SameBlock st st') (res : List ResolvedTx) :
    st'.sigChecks env H res = st.sigChecks env H res := by
  unfold BlockValidationState.sigChecks
  rw [h.txResult]

theorem Passed.trans {utxo : UnspentOutputDatabase} {res1 res2 : List ResolvedTx}
    {r1 r2 : UnspentOutputDatabase × BlockValidationState} (h1 : st.Passed env H utxo res1 r1)
    (h2 : r1.2.Passed env H r1.1 res2 r2) : st.Passed env H utxo (res1 ++ res2) r2 where
  same := h1.same.trans h2.same
  valid := h2.valid
  utxo := by
    rw [h2.utxo, h1.utxo, h1.same.blockId, ← removeAll_append]
    simp [BlockValidationState.spentOutpoints]
  fees := by
    rw [h2.fees, h1.fees, wrap_add_wrap_left, h1.same.fees, add_assoc]
    simp [BlockValidationState.fees]
  sigChecks := by
    rw [h2.sigChecks, h1.sigChecks, mod_add_mod, h1.same.sigChecks, add_assoc]
    simp [BlockValidationState.sigChecks]

/-- A chunk of a block that is not known to be invalid passes, or makes it invalid. -/
theorem checkSignaturesChunk_cases (hv : st.checkValidityOnly = false) (hinv : st.status.invalid = false)
    (split : ChunkSplit) (k : ℕ) (utxo : UnspentOutputDatabase) :
    (∃ res, st.Passes env H (st.chunkTxs split k) utxo.working res ∧
        st.Passed env H utxo res (st.checkSignaturesChunk env H split k utxo) ∧
        (st.checkSignaturesChunk env H split k utxo).2.undoItems =
          st.undoItems.set k (some (res.flatMap undoItemsOf))) ∨
      ((∀ res, ¬ st.Passes env H (st.chunkTxs split k) utxo.working res) ∧
        (st.checkSignaturesChunk env H split k utxo).2.status.invalid) := by
  have hsame : SameBlock st (st.checkSignaturesChunk env H split k utxo).2 :=
    sameBlock_checkSignaturesChunk env H split k utxo
  unfold checkSignaturesChunk at hsame ⊢
  simp only [hinv, Bool.false_eq_true, if_false] at hsame ⊢
  generalize hc : ({ utxo := utxo, txMap := st.txMap, spentMap := st.spentMap } : ChunkVars) =
    c at hsame ⊢
  have hwk : c.utxo = utxo := by rw [← hc]
  cases hr : st.checkTxs env H (st.chunkTxs split k) c with
  | mk c' o =>
    rw [hr] at hsame
    cases o with
    | none =>
      obtain ⟨res, hres, hpass, rfl⟩ := ((spendsFrom_utxo env H hv).checkTxs_pass_iff trivial).mp hr
      obtain ⟨hutxo, hundo, hfees, hsig⟩ := added_passTxs env H hv res c
      simp only [hwk] at hres
      rw [hwk] at hutxo
      refine .inl ⟨res, ⟨hres, hpass⟩, ⟨hsame, hinv, hutxo, ?_, ?_⟩, ?_⟩
      · have hzero : c.chunkFees = 0 := by rw [← hc]
        rw [hzero, sumFrom_eq_wrap 0 (by decide)] at hfees
        rw [hfees, zero_add, add, add_comm, wrap_add_wrap_left, add_comm]
      · have hzero : c.chunkSigChecks = 0 := by rw [← hc]
        rw [hzero, zero_add] at hsig
        exact hsig.add_left _
      · have hnil : c.undoItems = [] := by rw [← hc]
        rw [hundo, hnil, nil_append]
    | some t =>
      refine .inr ⟨fun res hres => ?_, failedBy_invalid st .rejectMalformed t⟩
      have h : st.checkTxs env H (st.chunkTxs split k) c = (_, none) :=
        ((spendsFrom_utxo env H hv).checkTxs_pass_iff trivial).mpr ⟨res,
          by simp only [hwk]; exact hres.1, hres.2, rfl⟩
      rw [hr] at h
      cases h

theorem checkChunks_of_invalid (split : ChunkSplit) (order : List ℕ)
    (r : UnspentOutputDatabase × BlockValidationState) (h : r.2.status.invalid) :
    (checkChunks env H split order r).2.status.invalid = true := by
  induction order generalizing r with
  | nil => exact h
  | cons k order ih =>
    apply ih
    simp [checkSignaturesChunk, h, checkTxs]

/-- Chunks pass exactly when all their transactions pass, in the order of the chunks. -/
theorem checkChunks_cases (hv : st.checkValidityOnly = false) (hinv : st.status.invalid = false)
    (hfees : Wrap64.Fits st.blockFees) (hsig : st.sigChecksCounted < 2 ^ 32) (split : ChunkSplit)
    (order : List ℕ) (utxo : UnspentOutputDatabase) :
    (∃ res, st.Passes env H (order.flatMap (st.chunkTxs split)) utxo.working res ∧
        st.Passed env H utxo res (checkChunks env H split order (utxo, st))) ∨
      ((∀ res, ¬ st.Passes env H (order.flatMap (st.chunkTxs split)) utxo.working res) ∧
        (checkChunks env H split order (utxo, st)).2.status.invalid) := by
  induction order generalizing st utxo with
  | nil =>
    refine .inl ⟨[], ⟨rfl, by simp⟩, .refl st, hinv, rfl, ?_, ?_⟩
    · simp [checkChunks, fees, wrap_eq_self hfees]
    · exact (mod_eq_of_lt hsig).symm
  | cons k order ih =>
    simp only [flatMap_cons, passes_append, checkChunks]
    rcases checkSignaturesChunk_cases hv hinv split k utxo with ⟨vs, hvs, hps, -⟩ | ⟨hno, hbad⟩
    · set r1 := st.checkSignaturesChunk env H split k utxo
      have hcks : r1.2.chunkTxs split = st.chunkTxs split := funext (hps.same.chunkTxs split)
      have hfits : Wrap64.Fits r1.2.blockFees := hps.fees ▸ fits_wrap _
      have hlt : r1.2.sigChecksCounted < 2 ^ 32 := hps.sigChecks ▸ mod_lt _ (by decide)
      have hrest := ih (hps.same.checkValidityOnly.trans hv) hps.valid hfits hlt r1.1
      rw [hcks, hps.working hvs] at hrest
      simp only [Passes.of_sameBlock hps.same] at hrest
      rcases hrest with ⟨ws, hws, hps'⟩ | ⟨hno, hbad⟩
      · exact .inl ⟨vs ++ ws, ⟨vs, ws, hvs, hws, rfl⟩, hps.trans hps'⟩
      · exact .inr ⟨fun res ⟨_, ws, _, hws, _⟩ => hno ws hws, hbad⟩
    · exact .inr ⟨fun res ⟨vs, _, hvs, _⟩ => hno vs hvs, checkChunks_of_invalid split order _ hbad⟩

/-- A state that no chunk has worked on yet, of a block that is to be appended. -/
structure Fresh (st : BlockValidationState) : Prop where
  valid : st.status.invalid = false
  toAppend : st.checkValidityOnly = false
  fees : st.blockFees = 0
  sigChecks : st.sigChecksCounted = 0

/-- The transactions that the chunks work on, in the order in which the chunks finish. -/
def scheduled (st : BlockValidationState) (split : ChunkSplit) (order : List ℕ) :
    List (Transaction × ℕ) :=
  order.flatMap (st.chunkTxs split)

/-- The unspent outputs, then those of the block. -/
def spendable (blockHeight : ℤ) (outputs : List TxOutputs) (utxo : UnspentOutputDatabase) :
    List UnspentOutput :=
  utxo.working ++ BlockData.records ⟨blockHeight, outputs⟩

theorem checkBlock_of_error {t : Thrown} (h : blockOutputs st.flags.hf201811Active st.block = .error t)
    (split : ChunkSplit) (order : List ℕ) (utxo : UnspentOutputDatabase) :
    st.checkBlock env H false split order utxo = (utxo, st.failedBy .rejectInternal t) := by
  simp [checkBlock, updateUtxoAndStartValidation, h]

theorem checkBlock_of_ok {outs : List TxOutputs} (hv : st.checkValidityOnly = false)
    (h : blockOutputs st.flags.hf201811Active st.block = .ok outs) (split : ChunkSplit) (order : List ℕ)
    (utxo : UnspentOutputDatabase) : st.checkBlock env H false split order utxo =
      checkChunks env H split order
        (utxo.insertAll st.blockId ⟨H, outs⟩, st.startChunks split.chunks) := by
  simp [checkBlock, updateUtxoAndStartValidation, h, hv]

theorem Fresh.startChunks (hst : st.Fresh) (chunks : ℕ) (utxo : UnspentOutputDatabase) :
    st.Passed env H utxo [] (utxo, st.startChunks chunks) where
  same := ⟨rfl, rfl, rfl, rfl, rfl, rfl, rfl⟩
  valid := hst.valid
  utxo := rfl
  fees := by
    show st.blockFees = wrap (st.blockFees + 0)
    rw [hst.fees]
    decide
  sigChecks := by
    show st.sigChecksCounted = (st.sigChecksCounted + 0) % 2 ^ 32
    rw [hst.sigChecks]
    rfl

/-- Every transaction is in one chunk, so every order of the chunks reaches all of them. -/
theorem scheduled_perm {split : ChunkSplit} {order : List ℕ} (hv : st.checkValidityOnly = false)
    (hcov : split.Covers st.block.vtx.length) (hord : order ~ range split.chunks) :
    st.scheduled split order ~ st.block.vtx.zipIdx := by
  have hchunk : st.chunkTxs split = fun k =>
      (st.block.vtx.zipIdx.drop (split.itemsPerChunk * k)).take split.itemsPerChunk := by
    funext k
    simp [chunkTxs, hv]
  have hall : ∀ n, (range n).flatMap (st.chunkTxs split) = st.block.vtx.zipIdx.take
      (split.itemsPerChunk * n) := by
    intro n
    induction n with
    | zero => simp
    | succ n ih => rw [range_succ, flatMap_append, ih, hchunk, mul_succ, take_add]; simp
  have hlen : st.block.vtx.zipIdx.length ≤ split.itemsPerChunk * split.chunks := by
    rw [length_zipIdx, mul_comm]
    exact hcov
  rw [← take_of_length_le hlen, ← hall]
  exact hord.flatMap_right _

theorem pending_removeAll {owner : Uint256} {inputs : List TxInput} {us : List UnspentOutput}
    {db : UnspentOutputDatabase} (h : spending.resolve inputs db.working = some us) :
    (db.removeAll owner inputs).pending = db.pending ++ us.map fun u => ⟨owner, .remove u⟩ := by
  induction inputs generalizing db us with
  | nil =>
    obtain rfl := Supply.resolve_nil_eq_some.mp h
    simp
  | cons i rest ih =>
    obtain ⟨u, vs, hu, hvs, rfl⟩ := Supply.resolve_cons_eq_some.mp h
    rw [removeAll_cons, ih (by rw [working_remove]; exact hvs), remove_of_find (find_spending.mp hu).1]
    simp

/-- Both stages of a block pass exactly when its outputs are in order and its transactions
pass. -/
theorem checkBlock_cases (hst : st.Fresh) (env : CheckEnv) (H : ℤ) (split : ChunkSplit)
    (order : List ℕ) (utxo : UnspentOutputDatabase) :
    (∃ outs res, blockOutputs st.flags.hf201811Active st.block = .ok outs ∧
        st.Passes env H (st.scheduled split order) (spendable H outs utxo) res ∧
        st.Passed env H (utxo.insertAll st.blockId ⟨H, outs⟩) res
          (st.checkBlock env H false split order utxo)) ∨
      ((∀ outs res, blockOutputs st.flags.hf201811Active st.block = .ok outs →
          ¬ st.Passes env H (st.scheduled split order) (spendable H outs utxo) res) ∧
        (st.checkBlock env H false split order utxo).2.status.invalid = true) := by
  cases hout : blockOutputs st.flags.hf201811Active st.block with
  | error t =>
    refine .inr ⟨fun _ _ h => (by cases h), ?_⟩
    rw [checkBlock_of_error hout]
    exact failedBy_invalid ..
  | ok outs =>
    rw [checkBlock_of_ok hst.toAppend hout]
    set db := utxo.insertAll st.blockId ⟨H, outs⟩
    have hstart : st.Passed env H db [] (db, st.startChunks split.chunks) := hst.startChunks ..
    have hfits : Wrap64.Fits (st.startChunks split.chunks).blockFees := hstart.fees ▸ fits_wrap _
    have hlt : (st.startChunks split.chunks).sigChecksCounted < 2 ^ 32 :=
      hstart.sigChecks ▸ mod_lt _ (by decide)
    have h := @checkChunks_cases env _ H (hstart.same.checkValidityOnly.trans hst.toAppend)
      hstart.valid hfits hlt split order db
    simp only [Passes.of_sameBlock hstart.same] at h
    rcases h with ⟨res, hres, hps⟩ | ⟨hno, hbad⟩
    · exact .inl ⟨outs, res, rfl, hres, hstart.trans hps⟩
    · refine .inr ⟨fun outputs' res h => ?_, hbad⟩
      cases h
      exact hno res

end BlockValidationState

/-! ### The verdict of the engine -/

namespace Engine

open BlockValidationState

variable {ps : Params} {s : StateId} {st : BlockValidationState} {p : IndexPtr} {e : Engine}
  {split : ChunkSplit} {order : List ℕ} {r : Engine × Bool} {outs : List TxOutputs} {e' : Engine}

theorem settleBlock_appended_iff (h : settleBlock ps s st p e = .ok r) :
    Appended st p e r.1 ↔ st.status.invalid = false ∧ Appendable ps st p e := by
  rcases settleBlock_cases h with ⟨hinv, -, -, hroll⟩ | ⟨hval, happ, -, hdone, -⟩ | ⟨hval, hnot,
    -, hsame⟩
  · refine iff_of_false (fun ⟨_, hdb⟩ => ?_) (fun ⟨hval, _⟩ => by simp [hinv] at hval)
    rw [hdb] at hroll
    simp [rollback, blockFinished] at hroll
  · exact iff_of_true hdone ⟨hval, happ⟩
  · refine iff_of_false (fun ⟨_, hdb⟩ => ?_) (fun ⟨_, happ⟩ => hnot happ)
    rw [hsame] at hdb
    have hl := congrArg (fun db => db.settled.length) hdb
    simp [blockFinished] at hl

theorem settleBlock_undoStored (h : settleBlock ps s st p e = .ok r)
    (happ : Appended st p e r.1) (hht : (e p).nHeight ≠ 0) : UndoStored st p e r.1 := by
  obtain ⟨hval, hable⟩ := (settleBlock_appended_iff h).mp happ
  rcases settleBlock_cases h with ⟨hinv, -⟩ | ⟨-, -, -, -, hundo⟩ | ⟨-, hnot, -⟩
  · simp [hinv] at hval
  · exact hundo hht
  · exact absurd hable hnot

/-- The checks of `processNewBlock` on what the transactions add up to. -/
def LateRules (params : Params) (st : BlockValidationState) (p : IndexPtr) (e : Engine)
    (res : List ResolvedTx) :
    Prop :=
  (e p).nHeight = 0 ∨
    (st.sigChecks (e.checkEnv params p) (e p).nHeight res).sum % 2 ^ 32 ≤
      params.blockSigCheckAcceptLimit ∧
      coinbaseAmountOk params
        { st with blockFees := wrap (st.fees (e.checkEnv params p) (e p).nHeight res).sum }
        (e p).nHeight = .ok true

/-- What a block has to meet to be appended, in terms of the records its inputs resolve to. -/
structure BlockRules (params : Params) (st : BlockValidationState) (p : IndexPtr) (split : ChunkSplit)
    (order : List ℕ) (e : Engine) (outputs : List TxOutputs) (res : List ResolvedTx) : Prop where
  walked : blockOutputs st.flags.hf201811Active st.block = .ok outputs
  passes : st.Passes (e.checkEnv params p) (e p).nHeight (st.scheduled split order)
    (spendable (e p).nHeight outputs e.utxo) res
  nextTip : (e p).nHeight = e.height + 1
  onHeaderChain : e.onHeaderChain p = true
  consistent : e.utxo.blockId = st.block.previousBlockId
  late : LateRules params st p e res

theorem BlockRules.unique {outputs' : List TxOutputs}
    {res res' : List ResolvedTx} (hrl : BlockRules ps st p split order e outs res)
    (hout : blockOutputs st.flags.hf201811Active st.block = .ok outputs')
    (hpass : st.Passes (e.checkEnv ps p) (e p).nHeight (st.scheduled split order)
      (spendable (e p).nHeight outputs' e.utxo) res') : outs = outputs' ∧ res = res' := by
  have h := hrl.walked
  rw [hout] at h
  cases h
  exact ⟨rfl, Option.some.inj (hrl.passes.1.symm.trans hpass.1)⟩

theorem mem_zipIdx_of_mem_tail {α : Type*} {x : α} {l : List α} (h : x ∈ l.tail) :
    ∃ k, 0 < k ∧ (x, k) ∈ l.zipIdx := by
  cases l with
  | nil => cases h
  | cons y l =>
    obtain ⟨k, hk, rfl⟩ := mem_iff_getElem.mp h
    refine ⟨k + 1, succ_pos k, ?_⟩
    rw [mem_zipIdx_iff_getElem?]
    simp

theorem checkBlock_eq (hs : e.states s = some st) (hp : st.blockIndex = some p) (split : ChunkSplit)
    (order : List ℕ) :
    e.checkBlock ps s split order =
      { e with
        utxo := (st.checkBlock (e.checkEnv ps p) (e p).nHeight ((e p).pprev = none) split order
          e.utxo).1
        states := update e.states s (some (st.checkBlock (e.checkEnv ps p) (e p).nHeight
          ((e p).pprev = none) split order e.utxo).2) } := by
  simp [checkBlock, hs, hp]

theorem coinbaseAmountOk_congr {st st' : BlockValidationState} (hsame : SameBlock st st') (nHeight : ℤ) :
    coinbaseAmountOk ps st' nHeight = coinbaseAmountOk ps { st with blockFees := st'.blockFees }
      nHeight := by
  simp [coinbaseAmountOk, hsame.fetchFees, hsame.block]

/-- A block whose transactions passed can be appended exactly when it meets the rules. -/
theorem appendable_iff_rules {res : List ResolvedTx} {r : UnspentOutputDatabase × BlockValidationState}
    {states : StateId → Option BlockValidationState} (hst : st.Fresh)
    (hout : blockOutputs st.flags.hf201811Active st.block = .ok outs)
    (hpass : st.Passes (e.checkEnv ps p) (e p).nHeight (st.scheduled split order)
      (spendable (e p).nHeight outs e.utxo) res)
    (hps : st.Passed (e.checkEnv ps p) (e p).nHeight (e.utxo.insertAll st.blockId ⟨(e p).nHeight,
      outs⟩) res r) :
    Appendable ps r.2 p { e with utxo := r.1, states := states } ↔
      BlockRules ps st p split order e outs res := by
  have hid : r.1.blockId = e.utxo.blockId := by
    rw [hps.utxo, blockId_removeAll]
    rfl
  have hlate : ((e p).nHeight = 0 ∨ r.2.sigChecksCounted ≤ ps.blockSigCheckAcceptLimit ∧
      coinbaseAmountOk ps r.2 (e p).nHeight = .ok true) ↔ LateRules ps st p e res := by
    rw [LateRules, coinbaseAmountOk_congr hps.same, hps.fees, hps.sigChecks, hst.fees,
      hst.sigChecks, zero_add, zero_add]
  constructor
  · rintro ⟨hnext, hcn, hid', hl⟩
    exact ⟨hout, hpass, hnext, hcn, by rw [← hid, ← hps.same.block]; exact hid', hlate.mp hl⟩
  · rintro ⟨-, -, hnext, hcn, hid', hl⟩
    exact ⟨hnext, hcn, by rw [hps.same.block, ← hid']; exact hid, hlate.mpr hl⟩

/-- The result of both stages is appended exactly when the block meets the rules. -/
theorem validateBlock_appended_iff (hst : st.Fresh)
    (hrun : e.shuttingDown = false) (hs : e.states s = some st) (hp : st.blockIndex = some p)
    (hpar : (e p).pprev ≠ none) (h : validateBlock ps s split order e = .ok e') :
    Appended st p (e.checkBlock ps s split order) e' ↔
      ∃ outs res, BlockRules ps st p split order e outs res := by
  set env := e.checkEnv ps p with henv
  set H := (e p).nHeight with hH
  have heq := @checkBlock_eq ps s st p e hs hp split order
  rw [decide_eq_false hpar, ← henv, ← hH] at heq
  set r := st.checkBlock env H false split order e.utxo with hr
  have hsame : SameBlock st r.2 := sameBlock_checkBlock ..
  unfold validateBlock at h
  rw [heq] at h ⊢
  set e1 : Engine := { e with utxo := r.1, states := update e.states s (some r.2) }
  have hs1 : e1.states s = some r.2 := update_self ..
  obtain ⟨r', hr', validating, children, states, flags, rfl⟩ :=
    @processNewBlock_eq ps s r.2 p e1 e' hrun hs1
    (hsame.blockIndex.trans hp) (hsame.checkValidityOnly.trans hst.toAppend) h
  have happ := settleBlock_appended_iff hr'
  unfold Appended at happ ⊢
  rw [← hsame.blockId, happ]
  rcases checkBlock_cases hst env H split order e.utxo with
    ⟨outs, res, hout, hpass, hps⟩ | ⟨hno, hbad⟩
  · have hiff : Appendable ps r.2 p e1 ↔ _ := appendable_iff_rules hst hout hpass hps
    rw [hiff]
    constructor
    · rintro ⟨-, hrl⟩
      exact ⟨outs, res, hrl⟩
    · rintro ⟨outputs', res', hrl⟩
      obtain ⟨rfl, rfl⟩ := hrl.unique hout hpass
      exact ⟨hps.valid, hrl⟩
  · rw [← hr] at hbad
    refine iff_of_false (fun ⟨hv, _⟩ => by simp [hbad] at hv) ?_
    rintro ⟨outs, res, hrl⟩
    exact hno outs res hrl.walked hrl.passes

/-- The condition of the atomic commit, on the block and the state before it: a block whose
transactions pass meets the other rules too, or makes again exactly the records it spends. -/
theorem settlesCleanly_iff (hst : st.Fresh) (hidle : e.utxo.Idle) (hs : e.states s = some st)
    (hp : st.blockIndex = some p) (hpar : (e p).pprev ≠ none) :
    SettlesCleanly ps s p (e.checkBlock ps s split order) ↔
      ∀ outs res, blockOutputs st.flags.hf201811Active st.block = .ok outs →
        st.Passes (e.checkEnv ps p) (e p).nHeight (st.scheduled split order)
          (spendable (e p).nHeight outs e.utxo) res →
        BlockRules ps st p split order e outs res ∨
          BlockData.records ⟨(e p).nHeight, outs⟩ ~ res.flatMap ResolvedTx.spent := by
  rw [SettlesCleanly, checkBlock_eq hs hp, decide_eq_false hpar]
  simp only [update_self, Option.some.injEq, exists_eq_left']
  rcases checkBlock_cases hst (e.checkEnv ps p) (e p).nHeight split order e.utxo with
    ⟨outs, res, hout, hpass, hps⟩ | ⟨hno, hbad⟩
  · have hcancel : inserted (st.checkBlock (e.checkEnv ps p) (e p).nHeight false split order
        e.utxo).1.pending ~
        removed (st.checkBlock (e.checkEnv ps p) (e p).nHeight false split order e.utxo).1.pending ↔
          BlockData.records ⟨(e p).nHeight, outs⟩ ~ res.flatMap ResolvedTx.spent := by
      rw [hps.utxo, hpass.spentOutpoints, @pending_removeAll _ _ _
        (e.utxo.insertAll st.blockId ⟨(e p).nHeight, outs⟩) (resolveTxs_iff.mp hpass.1).1]
      simp [insertAll, addRecords, hidle.2, inserted, filterMap_map]
    constructor
    · rintro h outs' res' hout' hpass'
      obtain rfl := Except.ok.inj (hout.symm.trans hout')
      obtain rfl := Option.some.inj (hpass.1.symm.trans hpass'.1)
      rcases h with hinv | happ | hc
      · cases hps.valid.symm.trans hinv
      · exact .inl ((appendable_iff_rules hst hout hpass hps).mp happ)
      · exact .inr (hcancel.mp hc)
    · intro h
      rcases h outs res hout hpass with hrl | hc
      · exact .inr (.inl ((appendable_iff_rules hst hout hpass hps).mpr hrl))
      · exact .inr (.inr (hcancel.mpr hc))
  · refine iff_of_true (.inl hbad) fun outs res hout hpass => absurd hpass (hno outs res hout)

theorem BlockRules.working
    {res : List ResolvedTx} (hrl : BlockRules ps st p split order e outs res) (hst : st.Fresh)
    (hs : e.states s = some st) (hp : st.blockIndex = some p) (hpar : (e p).pprev ≠ none)
    (happ : Appended st p (e.checkBlock ps s split order) e') :
    e'.utxo.working = spending.left ((st.scheduled split order).flatMap inputsOf)
      (spendable (e p).nHeight outs e.utxo) := by
  rw [happ.2, checkBlock_eq hs hp, decide_eq_false hpar]
  rcases checkBlock_cases hst (e.checkEnv ps p) (e p).nHeight split order e.utxo with
    ⟨outputs', res', hout', hpass', hps⟩ | ⟨hno, -⟩
  · obtain ⟨rfl, rfl⟩ := hrl.unique hout' hpass'
    exact hps.working hpass'
  · exact absurd hrl.passes (hno outs res hrl.walked)

end Engine

end FloweeHub.Validation
