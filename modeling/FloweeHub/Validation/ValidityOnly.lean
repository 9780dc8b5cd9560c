import Mathlib.Data.List.Induction
import FloweeHub.Validation.Maturity

/-! Checking a block without touching the unspent outputs, for which two maps stand in. The normal
path differs in what `processNewBlock` checks, and in that it counts a repeated outpoint as often as
it is there. -/

namespace FloweeHub.Validation

open Lib ChunkVars UnspentOutput List KeyedBag Function Except
open scoped List

namespace ChunkVars

/-- The record that an input of a block that is only checked can spend now. -/
def available (blockHeight : ℤ) (c : ChunkVars) (i : TxInput) : Option UnspentOutput :=
  match c.utxo.find i with
  | some u => if c.spentMap.contains i then none else some u
  | none => (lookup Prod.fst i c.txMap).map fun e => ⟨i.txid, i.index, blockHeight, e.2⟩

def mark (c : ChunkVars) (u : UnspentOutput) : ChunkVars :=
  match c.utxo.find u.outpoint with
  | some _ => { c with spentMap := c.spentMap ++ [u.outpoint] }
  | none => { c with txMap := discard Prod.fst u.outpoint c.txMap }

variable {H : ℤ} {c : ChunkVars} {i : TxInput} {u : UnspentOutput}

theorem outpoint_of_available (h : c.available H i = some u) : u.outpoint = i := by
  unfold available at h
  split at h
  next v hv =>
    split_ifs at h
    cases h
    exact key_of_lookup hv
  next =>
    obtain ⟨e, -, rfl⟩ := Option.map_eq_some_iff.mp h
    rfl

theorem available_mark (hn : (c.txMap.map Prod.fst).Nodup) :
    (c.mark u).available H = update (c.available H) u.outpoint none := by
  funext j
  cases hf : c.utxo.find u.outpoint with
  | some v =>
    by_cases hj : j = u.outpoint
    · subst hj
      simp [available, mark, hf]
    · simp [available, mark, hf, hj]
  | none =>
    by_cases hj : j = u.outpoint
    · subst hj
      simp [available, mark, hf, lookup_discard_self hn]
    · simp [available, mark, hf, hj, lookup_discard_of_ne hj]

end ChunkVars

/-! ### The outputs of the block -/

variable {t : TxOutputs}

theorem lookup_records (H : ℤ) {i : TxInput} (hfst : t.firstOutput = 0)
    (htxid : i.txid = t.txid) (hlo : 0 ≤ i.index) (hhi : i.index ≤ t.lastOutput) :
    lookup outpoint i (t.records H) = some ⟨i.txid, i.index, H, t.offsetInBlock⟩ := by
  have hform : ∀ u ∈ t.records H, u = ⟨t.txid, u.outIndex, H, t.offsetInBlock⟩ := by
    intro u hu
    obtain ⟨k, -, rfl⟩ := mem_map.mp hu
    rfl
  have hmem : (⟨t.txid, i.index, H, t.offsetInBlock⟩ : UnspentOutput) ∈ t.records H := by
    refine mem_map.mpr ⟨i.index.toNat, mem_range.mpr ?_, ?_⟩
    · rw [hfst]; omega
    · rw [hfst, zero_add, Int.toNat_of_nonneg hlo]
  obtain ⟨v, hv⟩ := exists_lookup_of_mem outpoint hmem
  have hkey : (⟨t.txid, i.index⟩ : TxInput) = i := by rw [← htxid]
  rw [show outpoint ⟨t.txid, i.index, H, t.offsetInBlock⟩ = i from hkey] at hv
  have hix : v.outIndex = i.index := congrArg TxInput.index (key_of_lookup hv)
  rw [hv, hform v (mem_of_lookup hv), hix, htxid]

/-- How the map of a block's outputs relates to the transactions that were walked over. -/
structure TxMapOf (blockHeight : ℤ) (outputs : List TxOutputs) (txMap : List (TxInput × ℤ)) : Prop where
  nodup : (txMap.map Prod.fst).Nodup
  source : ∀ e ∈ txMap, ∃ t ∈ outputs, e.1.txid = t.txid ∧ 0 ≤ e.1.index ∧ e.1.index ≤ t.lastOutput ∧
    e.2 = t.offsetInBlock
  all : ∀ t ∈ outputs, ∃ e ∈ txMap, e.1.txid = t.txid
  lookup : ∀ i e, lookup Prod.fst i txMap = some e →
    lookup outpoint i (BlockData.records ⟨blockHeight, outputs⟩) = some ⟨i.txid, i.index,
      blockHeight, e.2⟩

theorem TxMapOf.insertTxMap {H : ℤ} {outs : List TxOutputs} {txMap : List (TxInput × ℤ)}
    (h : TxMapOf H outs txMap) (hfst : t.firstOutput = 0) (hlast : 0 ≤ t.lastOutput) :
    TxMapOf H (outs ++ [t]) (insertTxMap txMap t) := by
  have hrec : BlockData.records ⟨H, outs ++ [t]⟩ =
      BlockData.records ⟨H, outs⟩ ++ t.records H := by
    simp [BlockData.records]
  have hsource : ∀ e ∈ txMap, ∃ t' ∈ outs ++ [t], e.1.txid = t'.txid ∧ 0 ≤ e.1.index ∧
      e.1.index ≤ t'.lastOutput ∧ e.2 = t'.offsetInBlock := fun e he => by
    obtain ⟨t', ht', hs⟩ := h.source e he
    exact ⟨t', mem_append_left _ ht', hs⟩
  by_cases hany : (txMap.any fun e => e.1.txid = t.txid)
  · rw [Validation.insertTxMap, if_pos hany]
    obtain ⟨e, he, htxid⟩ := any_eq_true.mp hany
    refine ⟨h.nodup, hsource,
      forall_mem_append.mpr ⟨h.all, forall_mem_singleton.mpr ⟨e, he, by simpa using htxid⟩⟩,
      fun i e hi => ?_⟩
    rw [hrec]
    exact lookup_append_of_some (h.lookup i e hi)
  · have hnew : ∀ e ∈ txMap, e.1.txid ≠ t.txid := by simpa using hany
    rw [Validation.insertTxMap, if_neg hany]
    set new := (range (t.lastOutput + 1).toNat).map fun i : ℕ =>
      ((⟨t.txid, i⟩, t.offsetInBlock) : TxInput × ℤ)
    have hmem : ∀ e ∈ new, e.1.txid = t.txid ∧ 0 ≤ e.1.index ∧ e.1.index ≤ t.lastOutput ∧
        e.2 = t.offsetInBlock := by
      intro e he
      obtain ⟨k, hk, rfl⟩ := mem_map.mp he
      rw [mem_range] at hk
      exact ⟨rfl, by simp, by dsimp only; omega, rfl⟩
    refine ⟨?_, forall_mem_append.mpr ⟨hsource, fun e he => ⟨t, by simp, hmem e he⟩⟩,
      forall_mem_append.mpr ⟨fun t' ht' => ?_, forall_mem_singleton.mpr ?_⟩, fun i e hi => ?_⟩
    · rw [map_append]
      refine List.Nodup.append h.nodup ?_ fun i h1 h2 => ?_
      · rw [map_map]
        refine nodup_range.map fun a b hab => ?_
        simpa using congrArg TxInput.index hab
      · obtain ⟨e1, he1, rfl⟩ := mem_map.mp h1
        obtain ⟨e2, he2, heq⟩ := mem_map.mp h2
        exact hnew e1 he1 (heq ▸ (hmem e2 he2).1)
    · obtain ⟨e, he, hs⟩ := h.all t' ht'
      exact ⟨e, mem_append_left _ he, hs⟩
    · exact ⟨(⟨t.txid, 0⟩, t.offsetInBlock),
        mem_append_right _ (mem_map.mpr ⟨0, mem_range.mpr (by omega), rfl⟩), rfl⟩
    · rw [hrec]
      cases hold : KeyedBag.lookup Prod.fst i txMap with
      | some e' =>
        obtain rfl : e' = e := Option.some.inj ((KeyedBag.lookup_append_of_some hold).symm.trans hi)
        exact lookup_append_of_some (h.lookup i e' hold)
      | none =>
        rw [lookup_append_of_none hold] at hi
        obtain ⟨htxid, hlo, hhi, hoff⟩ := hmem e (mem_of_lookup hi)
        obtain rfl : e.1 = i := key_of_lookup hi
        -- no earlier transaction has this id, so no earlier record has this outpoint
        have hnone : KeyedBag.lookup outpoint e.1 (BlockData.records ⟨H, outs⟩) = none := by
          refine KeyedBag.lookup_eq_none_iff.mpr fun u hu hkey => ?_
          obtain ⟨t', ht', hu⟩ := mem_flatMap.mp hu
          obtain ⟨k, -, rfl⟩ := mem_map.mp hu
          obtain ⟨e', he', hs⟩ := h.all t' ht'
          exact hnew e' he' (hs.trans ((congrArg TxInput.txid hkey).trans htxid))
        rw [lookup_append_of_none hnone, lookup_records H hfst htxid hlo hhi, hoff]

theorem txMapOf_foldl (H : ℤ) {outs : List TxOutputs}
    (h : ∀ t ∈ outs, t.firstOutput = 0 ∧ 0 ≤ t.lastOutput) :
    TxMapOf H outs (outs.foldl insertTxMap []) := by
  induction outs using reverseRecOn with
  | nil => exact ⟨nodup_nil, by simp, by simp, nofun⟩
  | append_singleton outs t ih =>
    rw [foldl_append]
    obtain ⟨hfst, hlast⟩ := h t (by simp)
    exact (ih fun t' ht' => h t' (mem_append_left _ ht')).insertTxMap hfst hlast

namespace BlockValidationState

variable (env : CheckEnv) (st : BlockValidationState) (H : ℤ)

/-- Every outpoint is there once, and is read through the block as through the chain. -/
def TxMapReadable (txMap : List (TxInput × ℤ)) : Prop :=
  (txMap.map Prod.fst).Nodup ∧
    ∀ e ∈ txMap, st.prevOut env ⟨e.1.txid, e.1.index, H, e.2⟩ = .ok (st.prevOutInBlock H e.1 e.2)

variable {env st H}

theorem TxMapReadable.sublist {l l' : List (TxInput × ℤ)} (h : st.TxMapReadable env H l)
    (hsub : l' <+ l) : st.TxMapReadable env H l' :=
  ⟨h.1.sublist (hsub.map Prod.fst), fun e he => h.2 e (hsub.subset he)⟩

theorem spendChecked_ok_iff {i : TxInput} {c c' : ChunkVars} {s : SpentVars}
    (hc : st.TxMapReadable env H c.txMap) : st.spendChecked env H i c = (c', .ok s) ↔
      ∃ u ps, c.available H i = some u ∧ st.prevOut env u = .ok ps ∧
        s = ⟨[u.blockHeight], ps⟩ ∧ c' = c.mark u := by
  unfold spendChecked
  cases hf : c.utxo.find i with
  | none =>
    have hav : c.available H i =
        (lookup Prod.fst i c.txMap).map fun e => ⟨i.txid, i.index, H, e.2⟩ := by
      simp [available, hf]
    rw [hav]
    cases hl : lookup Prod.fst i c.txMap with
    | none =>
      rw [KeyedBag.lookup] at hl
      simp [hl]
    | some e =>
      have hread := hc.2 e (mem_of_lookup hl)
      obtain rfl : e.1 = i := KeyedBag.key_of_lookup hl
      rw [KeyedBag.lookup] at hl
      have hmark : c.mark ⟨e.1.txid, e.1.index, H, e.2⟩ =
          { c with txMap := KeyedBag.discard Prod.fst e.1 c.txMap } := by
        simp [mark, outpoint, hf]
      simp only [hl, Option.map_some, Option.some.injEq, exists_and_left, exists_eq_left', hread, hmark,
        ok.injEq, Prod.mk.injEq]
      rw [and_comm, eq_comm, @eq_comm _ _ c']
      rfl
  | some u =>
    obtain rfl : u.outpoint = i := key_of_lookup hf
    by_cases hspt : u.outpoint ∈ c.spentMap
    · simp [available, hf, hspt]
    · have hav : c.available H u.outpoint = some u := by simp [available, hf, hspt]
      have hmark : c.mark u = { c with spentMap := c.spentMap ++ [u.outpoint] } := by
        simp [mark, hf]
      simp only [contains_iff_mem, if_neg hspt, hav, Option.some.injEq, exists_and_left,
        exists_eq_left', hmark]
      cases hp : st.prevOut env u with
      | error t => simp
      | ok ps =>
        simp only [ok.injEq, exists_eq_left', Prod.mk.injEq]
        rw [and_comm, eq_comm, @eq_comm _ _ c']

variable (env H) in
/-- A block that is only checked spends every outpoint once. -/
theorem spendsFrom_maps (hv : st.checkValidityOnly) :
    st.SpendsFrom env H Supply.once (available H) mark
      fun c => st.TxMapReadable env H c.txMap where
  spend := by
    intro i c c' s hc
    rw [spendInput, hv]
    exact spendChecked_ok_iff hc
  after := by
    intro i c u hc hu
    obtain rfl := outpoint_of_available hu
    refine ⟨?_, available_mark hc.1⟩
    unfold mark
    split
    · exact hc
    · exact hc.sublist discard_sublist
  frame := by
    intro c c' hutxo htx hspt
    refine ⟨fun hc => by rw [htx]; exact hc, ?_⟩
    funext i
    simp [available, hutxo, htx, hspt]

/-- The variables the one chunk of such a block starts with. -/
def startVars (outputs : List TxOutputs) (utxo : UnspentOutputDatabase) : ChunkVars where
  utxo := utxo
  txMap := outputs.foldl insertTxMap []
  spentMap := []

/-- The record an input can spend at the start. -/
def availableAtStart (blockHeight : ℤ) (outputs : List TxOutputs) (utxo : UnspentOutputDatabase) :
    TxInput → Option UnspentOutput :=
  (startVars outputs utxo).available blockHeight

/-- What is available at the start is the first record that the normal path finds. -/
theorem lookup_of_availableAtStart {outs : List TxOutputs} {utxo : UnspentOutputDatabase}
    (hout : ∀ t ∈ outs, t.firstOutput = 0 ∧ 0 ≤ t.lastOutput) {i : TxInput} {u : UnspentOutput}
    (h : availableAtStart H outs utxo i = some u) :
    lookup outpoint i (spendable H outs utxo) = some u := by
  unfold availableAtStart available startVars at h
  split at h
  next v hv =>
    cases h
    exact lookup_append_of_some hv
  next hnone =>
    obtain ⟨e, he, rfl⟩ := Option.map_eq_some_iff.mp h
    rw [spendable, lookup_append_of_none hnone]
    exact (txMapOf_foldl H hout).lookup i e he

/-- A fresh state that is only to be checked, and has its two maps empty. -/
structure FreshMaps (st : BlockValidationState) : Prop where
  valid : st.status.invalid = false
  txMap : st.txMap = []
  spentMap : st.spentMap = []

/-- The verdict of the two stages on a block that is only checked. -/
theorem checkBlock_validityOnly_iff (hst : st.FreshMaps) (hv : st.checkValidityOnly)
    {outs : List TxOutputs} (hout : blockOutputs st.flags.hf201811Active st.block = .ok outs)
    (hread : st.TxMapReadable env H (outs.foldl insertTxMap [])) (split : ChunkSplit)
    (utxo : UnspentOutputDatabase) :
    (st.checkBlock env H false split [0] utxo).2.status.invalid = false ↔
      ∃ res, (st.block.vtx.zipIdx.flatMap inputsOf).Nodup ∧
        Located (availableAtStart H outs utxo) st.block.vtx.zipIdx res ∧
        ∀ r ∈ res, (st.txResult env H r).isSome := by
  set st1 : BlockValidationState := { st with txMap := outs.foldl insertTxMap [] }.startChunks 1
  have hck : st.checkBlock env H false split [0] utxo =
      st1.checkSignaturesChunk env H split 0 utxo := by
    simp [checkBlock, updateUtxoAndStartValidation, hout, hv, hst.txMap, checkChunks, st1]
  have hvars : ({ utxo := utxo, txMap := st1.txMap, spentMap := st1.spentMap } : ChunkVars) =
      startVars outs utxo := by
    simp [startVars, st1, startChunks, hst.spentMap]
  have htxs : st1.chunkTxs split 0 = st.block.vtx.zipIdx := by
    simp [chunkTxs, st1, startChunks, hv]
  have hres : st1.txResult env H = st.txResult env H := txResult_congr rfl rfl
  have hval : st1.status.invalid = false := hst.valid
  have hS : st1.SpendsFrom env H _ _ _ _ := spendsFrom_maps env H hv
  have hread1 : st1.TxMapReadable env H (startVars outs utxo).txMap := hread
  rw [hck, checkSignaturesChunk_valid_iff hval, hvars, htxs, hS.checkTxs_none_iff hread1]
  simp only [resolveTxs_once_iff, hres, and_assoc]
  rfl

end BlockValidationState

namespace Engine

open BlockValidationState

variable {ps : Params} {s : StateId} {st : BlockValidationState} {p : IndexPtr} {e : Engine}

/-- The same engine, with the block only to be checked. -/
def onlyCheck (s : StateId) (e : Engine) : Engine := e.modifyState s fun st =>
    { st with checkValidityOnly := true }

/-- The block is checked in one chunk and no error is reported. -/
def AcceptedByCheck (params : Params) (s : StateId) (split : ChunkSplit) (e : Engine) : Prop :=
  ∃ e' st', validateBlock params s split [0] (e.onlyCheck s) = .ok e' ∧ e'.states s = some st' ∧
    st'.status.invalid = false

/-- The rules of a block that is only checked. -/
structure CheckedRules (params : Params) (st : BlockValidationState) (p : IndexPtr) (e : Engine)
    (outputs : List TxOutputs) (res : List ResolvedTx) : Prop where
  walked : blockOutputs st.flags.hf201811Active st.block = .ok outputs
  once : (st.block.vtx.zipIdx.flatMap inputsOf).Nodup
  located : Located (availableAtStart (e p).nHeight outputs e.utxo) st.block.vtx.zipIdx res
  passes : ∀ r ∈ res, (st.txResult (e.checkEnv params p) (e p).nHeight r).isSome

/-- The block is on the header chain and in the files, and fees are fetched where needed. -/
structure Stored (st : BlockValidationState) (p : IndexPtr) (e : Engine) : Prop where
  onHeaderChain : e.onHeaderChain p = true
  onDisk : e.blocks p = some st.block
  full : st.block.isFullBlock = true
  regular : st.block.Regular
  fetchFees : st.flags.enableValidation = true → st.fetchFees = true

/-- An output of the block reads the same through the chain and through the block. -/
theorem Stored.txMapReadable (h : Stored st p e) (hv : Bool) (ps : Params) {outs : List TxOutputs}
    (hout : blockOutputs st.flags.hf201811Active st.block = .ok outs) :
    { st with checkValidityOnly := hv }.TxMapReadable (e.checkEnv ps p) (e p).nHeight
      (outs.foldl insertTxMap []) := by
  obtain rfl := blockOutputs_ok hout
  have hmap := @txMapOf_foldl (e p).nHeight (st.block.walk.map txOutputs) fun t ht => by
    obtain ⟨w, -, rfl⟩ := mem_map.mp ht
    exact ⟨(txOutputs_range w).1, (txOutputs_range w).2.1⟩
  refine ⟨hmap.nodup, fun x hx => ?_⟩
  obtain ⟨t, ht, -, hlo, hhi, hoff⟩ := hmap.source x hx
  obtain ⟨w, hw, rfl⟩ := mem_map.mp ht
  rw [(txOutputs_range w).2.2 (h.regular.outputs w hw)] at hhi
  obtain ⟨o, ho⟩ := Option.isSome_iff_exists.mp (h.regular.outputAt hw hlo (by omega))
  rw [show w.offsetInBlock = x.2 from hoff.symm] at ho
  have hat : e.headerChain.at' e.db.index (e p).nHeight = some p := by
    simpa [Engine.onHeaderChain, Chain.Contains, index] using h.onHeaderChain
  have hread : (e.checkEnv ps p).read ⟨x.1.txid, x.1.index, (e p).nHeight, x.2⟩ = .ok o := by
    simp [checkEnv, unspentOutputData, hat, h.onDisk, h.full, ho]
  cases hfees : st.fetchFees with
  | true => simp [prevOut, prevOutInBlock, hread, ho]
  | false =>
    have hoff : st.flags.enableValidation = false := by
      by_contra hon
      have := h.fetchFees (by simpa using hon)
      simp [hfees] at this
    simp [prevOut, prevOutInBlock, hoff]

theorem acceptedByCheck_iff (hst : st.FreshMaps) (hstd : Stored st p e) (hrun : e.shuttingDown = false)
    (hs : e.states s = some st) (hp : st.blockIndex = some p) (hpar : (e p).pprev ≠ none)
    (split : ChunkSplit) :
    AcceptedByCheck ps s split e ↔ ∃ outs res, CheckedRules ps st p e outs res := by
  set st1 : BlockValidationState := { st with checkValidityOnly := true }
  set e1 := e.onlyCheck s with he1
  have hs1 : e1.states s = some st1 := by simp [he1, onlyCheck, modifyState, hs, st1]
  have henv : e1.checkEnv ps p = e.checkEnv ps p := rfl
  have hht : (e1 p).nHeight = (e p).nHeight := rfl
  set r := st1.checkBlock (e.checkEnv ps p) (e p).nHeight false split [0] e.utxo with hr
  -- the end of the check changes nothing but the list of blocks being validated
  have hvd : AcceptedByCheck ps s split e ↔ r.2.status.invalid = false := by
    have hsame : SameBlock st1 r.2 := sameBlock_checkBlock ..
    have hck : e1.checkBlock ps s split [0] =
        { e1 with utxo := r.1, states := update e1.states s (some r.2) } := by
      have hpar1 : (e1 p).pprev ≠ none := hpar
      rw [checkBlock_eq hs1 hp, henv, hht, decide_eq_false hpar1]
      rfl
    have hvalidate : validateBlock ps s split [0] e1 =
        .ok { e1 with
          utxo := r.1
          states := update e1.states s (some r.2)
          blocksBeingValidated := e1.blocksBeingValidated.filter fun b => b.1 ≠ r.2.blockId } := by
      have hrun1 : e1.shuttingDown = false := hrun
      simp [validateBlock, hck, processNewBlock, hrun1, hsame.blockIndex,
        hsame.checkValidityOnly, st1, hp]
    unfold AcceptedByCheck
    rw [hvalidate]
    simp
  rw [hvd]
  cases hout : blockOutputs st.flags.hf201811Active st.block with
  | error t =>
    have hbad : r.2.status.invalid := by
      have hout1 : blockOutputs st1.flags.hf201811Active st1.block = .error t := hout
      rw [hr, checkBlock_of_error hout1]
      exact failedBy_invalid ..
    refine iff_of_false (by simp [hbad]) ?_
    rintro ⟨outs, res, hrl⟩
    cases hout.symm.trans hrl.walked
  | ok outs =>
    have hst1 : st1.FreshMaps := ⟨hst.valid, hst.txMap, hst.spentMap⟩
    have hres : st1.txResult (e.checkEnv ps p) (e p).nHeight =
        st.txResult (e.checkEnv ps p) (e p).nHeight := txResult_congr rfl rfl
    rw [hr, checkBlock_validityOnly_iff hst1 rfl hout (hstd.txMapReadable true ps hout), hres]
    constructor
    · rintro ⟨res, hn, hloc, hpass⟩
      exact ⟨outs, res, hout, hn, hloc, hpass⟩
    · rintro ⟨outputs', res, hrl⟩
      cases hout.symm.trans hrl.walked
      exact ⟨res, hrl.once, hrl.located, hrl.passes⟩

theorem LateRules.perm {res res' : List ResolvedTx} (h : LateRules ps st p e res) (hperm : res ~ res') :
    LateRules ps st p e res' := by
  have hfees := (hperm.filterMap fun r =>
    ((st.txResult (e.checkEnv ps p) (e p).nHeight r).getD none).map Prod.fst).sum_eq
  have hsigs := (hperm.filterMap fun r =>
    ((st.txResult (e.checkEnv ps p) (e p).nHeight r).getD none).map Prod.snd).sum_eq
  unfold LateRules fees sigChecks at h ⊢
  rwa [← hfees, ← hsigs]

variable {split : ChunkSplit} {order : List ℕ} {outs : List TxOutputs} {res : List ResolvedTx}

theorem walked_range (h : blockOutputs st.flags.hf201811Active st.block = .ok outs) :
    ∀ t ∈ outs, t.firstOutput = 0 ∧ 0 ≤ t.lastOutput := by
  obtain rfl := blockOutputs_ok h
  intro t ht
  obtain ⟨w, -, rfl⟩ := mem_map.mp ht
  exact ⟨(txOutputs_range w).1, (txOutputs_range w).2.1⟩

/-- What passes the check passes the chunks too, if the heights of its records are valid. -/
theorem CheckedRules.passes_scheduled (h : CheckedRules ps st p e outs res)
    (hperm : st.scheduled split order ~ st.block.vtx.zipIdx)
    (hpos : ∀ r ∈ res, ∀ u ∈ r.spent, 0 < u.blockHeight) :
    ∃ res', st.Passes (e.checkEnv ps p) (e p).nHeight (st.scheduled split order)
      (spendable (e p).nHeight outs e.utxo) res' ∧ res' ~ res := by
  obtain ⟨res', hloc, hres⟩ := h.located.perm hperm
  have hn : ((st.scheduled split order).flatMap inputsOf).Nodup :=
    ((hperm.flatMap_right inputsOf).nodup_iff).mpr h.once
  refine ⟨res', ⟨(resolveTxs_spending_iff hn).mpr ⟨?_, ?_⟩, ?_⟩, hres⟩
  · exact hloc.mono fun i _ u hu => lookup_of_availableAtStart (walked_range h.walked) hu
  · exact fun r hr => hpos r (hres.mem_iff.mp hr)
  · exact fun r hr => h.passes r (hres.mem_iff.mp hr)

/-- The other way round, no outpoint may be spent twice or come from a repeated id only. -/
theorem BlockRules.checkedRules (h : BlockRules ps st p split order e outs res)
    (hperm : st.scheduled split order ~ st.block.vtx.zipIdx)
    (hn : (st.block.vtx.zipIdx.flatMap inputsOf).Nodup)
    (hav : ∀ i ∈ st.block.vtx.zipIdx.flatMap inputsOf,
      (availableAtStart (e p).nHeight outs e.utxo i).isSome) :
    ∃ res', CheckedRules ps st p e outs res' ∧ res' ~ res ∧ ∀ r ∈ res', ∀ u ∈ r.spent,
      0 < u.blockHeight := by
  have hn' : ((st.scheduled split order).flatMap inputsOf).Nodup :=
    ((hperm.flatMap_right inputsOf).nodup_iff).mpr hn
  obtain ⟨hloc, hpos⟩ := (resolveTxs_spending_iff hn').mp h.passes.1
  obtain ⟨res', hloc', hres⟩ := hloc.perm hperm.symm
  refine ⟨res', ⟨h.walked, hn, ?_, ?_⟩, hres, fun r hr => hpos r (hres.mem_iff.mp hr)⟩
  · refine hloc'.mono fun i hi u hu => ?_
    obtain ⟨v, hv⟩ := Option.isSome_iff_exists.mp (hav i hi)
    have hlook := lookup_of_availableAtStart (walked_range h.walked) hv
    rw [hv, ← hlook]
    exact hu
  · exact fun r hr => h.passes.2 r (hres.mem_iff.mp hr)

/-- A block that passes the check passes the end of the normal path too, and one that is appended
spends every outpoint once and none of a repeated id only. -/
structure AgreesWhen (params : Params) (st : BlockValidationState) (p : IndexPtr) (split : ChunkSplit)
    (order : List ℕ) (e : Engine) : Prop where
  late : ∀ outputs res, CheckedRules params st p e outputs res →
    LateRules params st p e res ∧ ∀ r ∈ res, ∀ u ∈ r.spent, 0 < u.blockHeight
  once : ∀ outputs res, BlockRules params st p split order e outputs res →
    (st.block.vtx.zipIdx.flatMap inputsOf).Nodup ∧
      ∀ i ∈ st.block.vtx.zipIdx.flatMap inputsOf,
        (availableAtStart (e p).nHeight outputs e.utxo i).isSome

/-- The check gives the verdict of the normal path exactly under these conditions. -/
theorem check_agrees_iff {e' : Engine} (hst : st.Fresh) (hmaps : st.FreshMaps)
    (hrun : e.shuttingDown = false) (hs : e.states s = some st) (hp : st.blockIndex = some p)
    (hparent : (e p).pprev ≠ none) (hcovers : split.Covers st.block.vtx.length)
    (horder : order ~ range split.chunks) (hstored : Stored st p e)
    (hnext : (e p).nHeight = e.height + 1) (htip : e.utxo.blockId = st.block.previousBlockId)
    (h : validateBlock ps s split order e = .ok e') :
    (AcceptedByCheck ps s split e ↔ Appended st p (e.checkBlock ps s split order) e') ↔
      AgreesWhen ps st p split order e := by
  have hperm := scheduled_perm hst.toAppend hcovers horder
  rw [acceptedByCheck_iff hmaps hstored hrun hs hp hparent split,
    validateBlock_appended_iff hst hrun hs hp hparent h]
  constructor
  · intro hagree
    refine ⟨fun outs res hrl => ?_, fun outs res hrl => ?_⟩
    · obtain ⟨outputs', res', hrl'⟩ := hagree.mp ⟨outs, res, hrl⟩
      cases hrl.walked.symm.trans hrl'.walked
      obtain ⟨res'', hrl'', hres, hpos⟩ := hrl'.checkedRules hperm hrl.once hrl.located.isSome
      obtain rfl := hrl.located.unique hrl''.located
      exact ⟨hrl'.late.perm hres.symm, hpos⟩
    · obtain ⟨outputs', res', hrl'⟩ := hagree.mpr ⟨outs, res, hrl⟩
      cases hrl.walked.symm.trans hrl'.walked
      exact ⟨hrl'.once, hrl'.located.isSome⟩
  · rintro ⟨hlate, honce⟩
    constructor
    · rintro ⟨outs, res, hrl⟩
      obtain ⟨hl, hpos⟩ := hlate outs res hrl
      obtain ⟨res', hpass, hres⟩ := hrl.passes_scheduled hperm hpos
      exact ⟨outs, res', hrl.walked, hpass, hnext, hstored.onHeaderChain, htip, hl.perm hres.symm⟩
    · rintro ⟨outs, res, hrl⟩
      obtain ⟨hn, hav⟩ := honce outs res hrl
      obtain ⟨res', hrl', -, -⟩ := hrl.checkedRules hperm hn hav
      exact ⟨outs, res', hrl'⟩

/-- A coinbase that takes sixty coins passes the check but is not appended. -/
theorem check_not_agrees :
    AcceptedByCheck sampleParams 0 ⟨1, 1⟩ (sampleEngine [] (sampleState [sampleCoinbase (60 * COIN)])) ∧
      ∃ e', validateBlock sampleParams 0 ⟨1,
        1⟩ [0] (sampleEngine [] (sampleState [sampleCoinbase (60 * COIN)])) = .ok e' ∧
        e'.blockchain = some 0 ∧
        ¬ Appended (sampleState [sampleCoinbase (60 * COIN)]) 1
          ((sampleEngine [] (sampleState [sampleCoinbase (60 * COIN)])).checkBlock sampleParams 0
            ⟨1, 1⟩ [0]) e' := by
  refine ⟨⟨_, _, rfl, rfl, by decide⟩, _, rfl, by decide, fun hdone => ?_⟩
  have hcn := hdone.1
  revert hcn
  decide

theorem check_agrees_iff_sample :
    ∃ e', validateBlock sampleParams 0 ⟨2, 1⟩ [1, 0] beforeSpending = .ok e' ∧
      e'.blockchain = some 1 ∧
      ((AcceptedByCheck sampleParams 0 ⟨2, 1⟩ beforeSpending ↔
          Appended sampleSpending 1 (beforeSpending.checkBlock sampleParams 0 ⟨2, 1⟩ [1, 0]) e') ↔
        AgreesWhen sampleParams sampleSpending 1 ⟨2, 1⟩ [1, 0] beforeSpending) := by
  refine ⟨_, rfl, by decide, ?_⟩
  exact check_agrees_iff ⟨rfl, rfl, rfl, rfl⟩ ⟨rfl, rfl, rfl⟩ rfl rfl rfl (by decide) (by decide)
    (.swap ..)
    ⟨by decide, rfl, rfl, ⟨by decide, by decide⟩, fun _ => rfl⟩ (by decide) rfl rfl

/-- In another order the same records are found, if no outpoint is spent twice. -/
theorem passes_perm {env : CheckEnv} {H : ℤ} {txs txs' : List (Transaction × ℕ)}
    {us : List UnspentOutput} (hn : (txs.flatMap inputsOf).Nodup) (hperm : txs' ~ txs)
    (h : st.Passes env H txs us res) :
    ∃ res', st.Passes env H txs' us res' ∧ res' ~ res := by
  have hn' : (txs'.flatMap inputsOf).Nodup := (hperm.flatMap_right inputsOf).nodup_iff.mpr hn
  obtain ⟨hloc, hpos⟩ := (resolveTxs_spending_iff hn).mp h.1
  obtain ⟨res', hloc', hres⟩ := hloc.perm hperm
  refine ⟨res', ⟨(resolveTxs_spending_iff hn').mpr ⟨hloc', fun r hr => ?_⟩, fun r hr => ?_⟩, hres⟩
  · exact hpos r (hres.mem_iff.mp hr)
  · exact h.2 r (hres.mem_iff.mp hr)

/-- The rules for chunks that cover the block, in whatever order they run, are those for one chunk. -/
theorem blockRules_one_chunk (hst : st.Fresh) (hn : (st.block.vtx.zipIdx.flatMap inputsOf).Nodup)
    (hcov : split.Covers st.block.vtx.length) (hord : order ~ range split.chunks) :
    (∃ outs res, BlockRules ps st p split order e outs res) ↔
      ∃ outs res, BlockRules ps st p ⟨1, st.block.vtx.length⟩ [0] e outs res := by
  have hperm := scheduled_perm hst.toAppend hcov hord
  have hone : st.scheduled ⟨1, st.block.vtx.length⟩ [0] = st.block.vtx.zipIdx := by
    simp [scheduled, chunkTxs, hst.toAppend]
  constructor
  · rintro ⟨outs, res, hrl⟩
    obtain ⟨res', hps, hres⟩ :=
      passes_perm ((hperm.flatMap_right _).nodup_iff.mpr hn) hperm.symm hrl.passes
    exact ⟨outs, res', { hrl with passes := hone ▸ hps, late := hrl.late.perm hres.symm }⟩
  · rintro ⟨outs, res, hrl⟩
    obtain ⟨res', hps, hres⟩ := passes_perm hn hperm (hone ▸ hrl.passes)
    exact ⟨outs, res', { hrl with passes := hps, late := hrl.late.perm hres.symm }⟩

/-- However the block is cut into chunks and in whatever order they run, the verdict is that of one
chunk. -/
theorem parallel_agrees {e' : Engine} (hst : st.Fresh) (hrun : e.shuttingDown = false)
    (hs : e.states s = some st) (hp : st.blockIndex = some p) (hpar : (e p).pprev ≠ none)
    (hn : (st.block.vtx.zipIdx.flatMap inputsOf).Nodup) (hcov : split.Covers st.block.vtx.length)
    (hord : order ~ range split.chunks) (h : validateBlock ps s split order e = .ok e') :
    Appended st p (e.checkBlock ps s split order) e' ↔
      ∃ outs res, BlockRules ps st p ⟨1, st.block.vtx.length⟩ [0] e outs res := by
  rw [validateBlock_appended_iff hst hrun hs hp hpar h]
  exact blockRules_one_chunk hst hn hcov hord

theorem parallel_agrees_reversed :
    let st := sampleState [sampleCoinbase (50 * COIN), sampleSpend]
    let e := sampleEngine [] st
    ∃ e', validateBlock sampleParams 0 ⟨2, 1⟩ [1, 0] e = .ok e' ∧ e'.blockchain = some 1 ∧
      (Appended st 1 (e.checkBlock sampleParams 0 ⟨2, 1⟩ [1, 0]) e' ↔
        ∃ outs res, BlockRules sampleParams st 1 ⟨1, 2⟩ [0] e outs res) :=
  ⟨_, rfl, by decide, parallel_agrees ⟨rfl, rfl, rfl, rfl⟩ rfl rfl rfl (by decide) (by decide) (by decide)
    (.swap ..) rfl⟩

/-- The chunks that `calculateTxCheckChunks` makes for any number of cores are of that kind. -/
theorem calculateTxCheckChunks_agrees {e' : Engine} {hardwareConcurrency : ℕ}
    (hcores : 0 < hardwareConcurrency) (hst : st.Fresh) (hrun : e.shuttingDown = false)
    (hs : e.states s = some st) (hp : st.blockIndex = some p) (hpar : (e p).pprev ≠ none)
    (hn : (st.block.vtx.zipIdx.flatMap inputsOf).Nodup)
    (hsplit : split = calculateTxCheckChunks hardwareConcurrency st.block.vtx.length)
    (hord : order ~ range split.chunks) (h : validateBlock ps s split order e = .ok e') :
    Appended st p (e.checkBlock ps s split order) e' ↔
      ∃ outs res, BlockRules ps st p ⟨1, st.block.vtx.length⟩ [0] e outs res := by
  rw [validateBlock_appended_iff hst hrun hs hp hpar h]
  exact blockRules_one_chunk hst hn (hsplit ▸ calculateTxCheckChunks_covers hcores _) hord

end Engine

end FloweeHub.Validation
