import FloweeHub.Validation.ProcessNewBlock

/-! What `processNewBlock` leaves in the unspent outputs. A block that was found invalid is rolled
back and one that can be appended is committed; any other is dropped and its changes stay in the
working map. Proved is when nothing is left half done. -/

namespace FloweeHub.Validation

open Lib UnspentOutputDatabase BlockValidationState
open scoped List

namespace Engine

variable {ps : Params} {s : StateId} {st : BlockValidationState} {p : IndexPtr} {e : Engine}
  {e' : Engine}

theorem markDescendants_frame (n : ℕ) (e : Engine) (tip : IndexPtr) :
    ∃ index, markDescendants p n e tip = { e with db := { e.db with index := index } } := by
  induction n generalizing e tip with
  | zero => exact ⟨_, rfl⟩
  | succ n ih =>
    unfold markDescendants
    split_ifs
    · exact ⟨_, rfl⟩
    · dsimp only
      split
      · exact ⟨_, rfl⟩
      · obtain ⟨index, h⟩ := ih (e.modifyIndex tip fun b => { b with failedChild := true }) _
        exact ⟨index, h⟩

theorem foldl_failDescendants_frame (tips : List IndexPtr) (e : Engine) :
    ∃ index, tips.foldl (failDescendants p) e = { e with db := { e.db with index := index } } := by
  induction tips generalizing e with
  | nil => exact ⟨_, rfl⟩
  | cons tip tips ih =>
    have hone : ∃ index, failDescendants p e tip = { e with db := { e.db with index := index } } := by
      unfold failDescendants
      split_ifs
      · exact markDescendants_frame ..
      · exact ⟨_, rfl⟩
    obtain ⟨index, hone⟩ := hone
    obtain ⟨index', h⟩ := ih { e with db := { e.db with index := index } }
    exact ⟨index', by rw [List.foldl_cons, hone, h]⟩

/-- Blaming a header marks states and the index, and may take blocks off the chain. -/
theorem handleFailedBlock_cases (h : handleFailedBlock s e = .ok e') :
    ∃ db states utxo, (utxo = e.utxo ∨ ∃ id, utxo = e.utxo.setFailedBlockId id) ∧
      (e' = { e with db := db, states := states, utxo := utxo } ∨
        { e with db := db, states := states, utxo := utxo }.prepareChain = .ok e') := by
  unfold handleFailedBlock at h
  split at h
  · cases h
    exact ⟨_, _, _, .inl rfl, .inl rfl⟩
  · obtain ⟨states, hmark⟩ := recursivelyMark_frame (e.nextState + 1) e s
    rw [hmark] at h
    dsimp only at h
    split at h
    · cases h
      exact ⟨_, _, _, .inl rfl, .inl rfl⟩
    next q _ =>
      set e1 : Engine := { e with states := states }.modifyIndex q fun b =>
        { b with failedValid := true }
      obtain ⟨index, hfail⟩ := @foldl_failDescendants_frame q e1.db.headerChainTips e1
      rw [hfail] at h
      split_ifs at h
      · cases h
        exact ⟨_, _, _, .inr ⟨_, rfl⟩, .inl rfl⟩
      · exact ⟨_, _, _, .inr ⟨_, rfl⟩, .inr h⟩
      · cases h
        exact ⟨_, _, _, .inr ⟨_, rfl⟩, .inl rfl⟩
      · cases h
        exact ⟨_, _, _, .inl rfl, .inl rfl⟩

/-- What undoing blocks keeps, blaming one keeps. -/
theorem handleFailedBlock_preserves {Q : UnspentOutputDatabase → Prop}
    (hundo : ∀ db owner items height id, Q db → Q (undoBlock owner items height id db))
    (hfail : ∀ db id, Q db → Q (db.setFailedBlockId id)) (h : handleFailedBlock s e = .ok e')
    (hQ : Q e.utxo) : Q e'.utxo := by
  obtain ⟨db, states, utxo, hutxo, hend⟩ := handleFailedBlock_cases h
  have hQ' : Q utxo := by
    rcases hutxo with rfl | ⟨id, rfl⟩
    · exact hQ
    · exact hfail _ _ hQ
  rcases hend with rfl | hprep
  · exact hQ'
  · exact prepareChain_preserves hundo hprep hQ'

variable (h : handleFailedBlock s e = .ok e')

include h

/-- As long as the tip stays on the header chain, the two maps are left alone. -/
theorem handleFailedBlock_stays
    (hstay : ∀ q, e.blockchain = some q → e'.onHeaderChain q) : e'.utxo.working = e.utxo.working := by
  obtain ⟨db, states, utxo, hutxo, hend⟩ := handleFailedBlock_cases h
  have hwk : utxo.working = e.utxo.working := by
    rcases hutxo with rfl | ⟨id, rfl⟩ <;> rfl
  rcases hend with rfl | hprep
  · exact hwk
  · rw [prepareChain_stays hprep hstay]
    exact hwk

theorem handleFailedBlock_idle (hi : e.utxo.Idle) : e'.utxo.Idle :=
  handleFailedBlock_preserves (fun _ _ _ _ _ _ => idle_blockFinished ..) (fun _ _ hdb => hdb) h hi

theorem handleFailedBlock_settled : e.utxo.settled <+: e'.utxo.settled :=
  handleFailedBlock_preserves (Q := fun db => e.utxo.settled <+: db.settled)
    (fun db _ _ _ _ hdb => List.IsPrefix.trans hdb (undoBlock_settled db ..)) (fun _ _ hdb => hdb) h
    (List.prefix_refl _)

omit h

/-- A block that passed its checks is appended under these conditions. -/
structure Appendable (params : Params) (st : BlockValidationState) (p : IndexPtr) (e : Engine) :
    Prop where
  nextTip : (e p).nHeight = e.height + 1
  onHeaderChain : e.onHeaderChain p = true
  consistent : e.utxo.blockId = st.block.previousBlockId
  late : (e p).nHeight = 0 ∨ st.sigChecksCounted ≤ params.blockSigCheckAcceptLimit ∧
    coinbaseAmountOk params st (e p).nHeight = .ok true

/-- The block is the tip and its changes were committed under its height and id. -/
def Appended (st : BlockValidationState) (p : IndexPtr) (e e' : Engine) : Prop :=
  e'.blockchain = some p ∧ e'.utxo = e.utxo.blockFinished st.blockId (e p).nHeight st.blockId

/-- The undo data of the block can be found again. -/
structure UndoStored (st : BlockValidationState) (p : IndexPtr) (e e' : Engine) : Prop where
  data : e'.undoBlocks p = some (undoData st)
  haveUndo : (e' p).haveUndo = true
  pprev : (e' p).pprev = (e p).pprev

theorem RaiseValidity_frame (b : BlockIndex) (n : ℕ) :
    (b.RaiseValidity n).nHeight = b.nHeight ∧ (b.RaiseValidity n).pprev = b.pprev ∧
      (b.RaiseValidity n).haveUndo = b.haveUndo := by
  unfold BlockIndex.RaiseValidity
  split_ifs <;> exact ⟨rfl, rfl, rfl⟩

theorem appendToChain_appended (e : Engine) : Appended st p e (appendToChain s st p e) := by
  refine ⟨rfl, ?_⟩
  simp [appendToChain, index, modifyIndex, RaiseValidity_frame]

theorem appendToChain_undoStored (e : Engine) : UndoStored st p e (appendToChain s st p e) := by
  unfold appendToChain
  dsimp only
  generalize he1 : ({ e with undoBlocks := Function.update e.undoBlocks p (some (undoData st)) }.modifyIndex p fun b =>
    { b with haveUndo := true }.RaiseValidity BLOCK_VALID_SCRIPTS) = e1
  obtain ⟨states, jobs, h⟩ := signalChildren_frame (((e1.states s).map chainChildren).getD [])
    { e1 with utxo := e1.utxo.blockFinished st.blockId (e1 p).nHeight st.blockId }
  rw [h, ← he1]
  constructor <;> simp [index, modifyIndex, RaiseValidity_frame]

theorem appendGenesis_appended (e : Engine) : Appended st p e (appendGenesis s st p e) := by
  obtain ⟨states, jobs, h⟩ := signalChildren_frame (((e.states s).map chainChildren).getD [])
    ({ e with utxo := e.utxo.blockFinished st.blockId (e p).nHeight st.blockId, blockchain := some p }.modifyIndex
      p fun b => b.RaiseValidity BLOCK_VALID_SCRIPTS)
  refine ⟨?_, by simp [appendGenesis, index]⟩
  exact congrArg Engine.blockchain h

/-- The body of the `try`: the block is appended, or nothing happens to the unspent outputs. -/
theorem tryAppend_cases {r : Engine × Option Exception} (h : tryAppend ps s st p e = .ok r) :
    (r.2 = none ∧ e.utxo.blockId = st.block.previousBlockId ∧
        ((e p).nHeight = 0 ∨ st.sigChecksCounted ≤ ps.blockSigCheckAcceptLimit ∧
          coinbaseAmountOk ps st (e p).nHeight = .ok true) ∧ Appended st p e r.1 ∧
        ((e p).nHeight ≠ 0 → UndoStored st p e r.1)) ∨
      (r.2.isSome ∧ ¬ (e.utxo.blockId = st.block.previousBlockId ∧
        ((e p).nHeight = 0 ∨ st.sigChecksCounted ≤ ps.blockSigCheckAcceptLimit ∧
          coinbaseAmountOk ps st (e p).nHeight = .ok true)) ∧ r.1.utxo = e.utxo) := by
  by_cases hc : e.utxo.blockId = st.block.previousBlockId
  swap
  · rw [tryAppend, if_pos hc] at h
    cases h
    exact .inr ⟨rfl, fun hn => hc hn.1, rfl⟩
  · rw [tryAppend, if_neg (not_not.mpr hc)] at h
    dsimp only at h
    generalize (((e p).pprev).map fun q => (e q).nChainTx).getD 0 = parentTx at h
    set e1 := e.modifyIndex p fun b =>
      { b with nChainTx := b.nTx + parentTx }.RaiseValidity BLOCK_VALID_CHAIN
    have hht : (e1 p).nHeight = (e p).nHeight := by
      simp [e1, index, modifyIndex, RaiseValidity_frame]
    have hpprev : (e1 p).pprev = (e p).pprev := by
      simp [e1, index, modifyIndex, RaiseValidity_frame]
    have happ : ∀ e2, Appended st p e1 e2 → Appended st p e e2 := fun e2 h2 =>
      ⟨h2.1, by rw [h2.2, hht]; rfl⟩
    rw [hht] at h
    split_ifs at h with h0 hsig
    · cases h
      exact .inl ⟨rfl, hc, .inl h0, happ _ (appendGenesis_appended e1), fun hne => absurd h0 hne⟩
    · cases h
      refine .inr ⟨rfl, fun hn => ?_, rfl⟩
      rcases hn.2 with hz | ⟨hle, -⟩
      · exact h0 hz
      · exact absurd hle (not_le.mpr hsig)
    · obtain ⟨ok, hok, hrest⟩ := Guards.bind_eq_ok_iff.mp h
      cases ok with
      | true =>
        cases hrest
        have hundo : UndoStored st p e1 (appendToChain s st p e1) := appendToChain_undoStored e1
        exact .inl ⟨rfl, hc, .inr ⟨not_lt.mp hsig, hok⟩, happ _ (appendToChain_appended e1),
          fun _ => ⟨hundo.data, hundo.haveUndo, hundo.pprev.trans hpprev⟩⟩
      | false =>
        cases hrest
        refine .inr ⟨rfl, fun hn => ?_, rfl⟩
        rcases hn.2 with hz | ⟨-, hamount⟩
        · exact h0 hz
        · rw [hok] at hamount
          cases hamount

/-- What `processNewBlock` makes of a block: rolled back, committed, or left as it is. -/
theorem settleBlock_cases {r : Engine × Bool} (h : settleBlock ps s st p e = .ok r) :
    (st.status.invalid ∧ r.2 = false ∧ r.1.utxo.Idle ∧
      (e.utxo.rollback st.blockId).settled <+: r.1.utxo.settled ∧
        ((∀ q, e.blockchain = some q → r.1.onHeaderChain q) → r.1.utxo.working = e.utxo.committed)) ∨
      (st.status.invalid = false ∧ Appendable ps st p e ∧ r.2 ∧ Appended st p e r.1 ∧
        ((e p).nHeight ≠ 0 → UndoStored st p e r.1)) ∨
      (st.status.invalid = false ∧ ¬ Appendable ps st p e ∧ r.2 = false ∧ r.1.utxo = e.utxo) := by
  unfold settleBlock at h
  cases hinv : st.status.invalid with
  | true =>
    left
    simp only [hinv, Bool.not_true, Bool.and_false, Bool.false_and, Bool.false_eq_true, if_false] at h
    set e1 : Engine := { e with utxo := e.utxo.rollback st.blockId }
    generalize hif : (if decide ((e1 p).nHeight = e1.height + 1) = true then e1
      else e1.modifyIndex p fun b => { b with failedChild := true }) = e2 at h
    have h2 : e2.utxo = e.utxo.rollback st.blockId := by rw [← hif]; split_ifs <;> rfl
    have hcn : e2.blockchain = e.blockchain := by rw [← hif]; split_ifs <;> rfl
    have hidle : e2.utxo.Idle := h2 ▸ idle_rollback ..
    have hback : e2.utxo.working = e.utxo.committed := by rw [h2]; rfl
    rw [← h2, ← hback, ← hcn]
    split_ifs at h
    · cases h
      exact ⟨rfl, rfl, hidle, List.prefix_refl _, fun _ => rfl⟩
    · obtain ⟨e3, h3, hrest⟩ := Guards.bind_eq_ok_iff.mp h
      cases hrest
      have hi := handleFailedBlock_idle h3 hidle
      have hs := handleFailedBlock_settled h3
      have hw := handleFailedBlock_stays h3
      refine ⟨rfl, rfl, ?_⟩
      split_ifs <;> exact ⟨hi, hs, hw⟩
  | false =>
    right
    simp only [hinv, Bool.not_false, if_true, Bool.and_true] at h
    by_cases hnext : (e p).nHeight = e.height + 1
    · simp only [hnext, decide_true, if_true, Bool.true_and] at h
      split_ifs at h with hcn
      · obtain ⟨r', hr', hrest⟩ := Guards.bind_eq_ok_iff.mp h
        rcases tryAppend_cases hr' with ⟨hnone, hc, hlate, happ, hundo⟩ | ⟨hsome, hnot, hutxo⟩
        · rw [hnone] at hrest
          cases hrest
          exact .inl ⟨rfl, ⟨hnext, hcn, hc, hlate⟩, rfl, happ, hundo⟩
        · obtain ⟨ex, hex⟩ := Option.isSome_iff_exists.mp hsome
          rw [hex] at hrest
          cases hrest
          exact .inr ⟨rfl, fun ha => hnot ⟨ha.consistent, ha.late⟩, rfl, hutxo⟩
      · cases h
        exact .inr ⟨rfl, fun ha => hcn ha.onHeaderChain, rfl, rfl⟩
    · simp only [hnext, decide_false, Bool.false_and, Bool.false_eq_true, if_false] at h
      cases h
      exact .inr ⟨rfl, fun ha => hnext ha.nextTip, rfl, rfl⟩

/-- The rest of `processNewBlock` tidies up the lists of blocks and the state. -/
theorem processNewBlock_eq (hrun : e.shuttingDown = false) (hs : e.states s = some st)
    (hp : st.blockIndex = some p) (hv : st.checkValidityOnly = false)
    (h : processNewBlock ps s e = .ok e') :
    ∃ r, settleBlock ps s st p e = .ok r ∧ ∃ validating children states flags,
      e' = { r.1 with
        blocksBeingValidated := validating
        chainTipChildren := children
        states := states
        tipFlags := flags } := by
  simp only [processNewBlock, hrun, hs, hp, hv, Bool.false_eq_true, if_false] at h
  obtain ⟨r, hr, hrest⟩ := Guards.bind_eq_ok_iff.mp h
  refine ⟨r, hr, ?_⟩
  split_ifs at hrest <;> cases hrest <;> exact ⟨_, _, _, _, rfl⟩

/-! ### One block at a time -/

/-- All stages of one block, with nothing else in between. -/
def validateBlock (params : Params) (s : StateId) (split : ChunkSplit) (order : List ℕ) (e : Engine) :
    Except String Engine :=
  processNewBlock params s (e.checkBlock params s split order)

/-- The block was appended and committed, or nothing of it is left in the working map. -/
def Atomic (st : BlockValidationState) (p : IndexPtr) (e e' : Engine) : Prop :=
  Appended st p e e' ∨ e'.utxo.working ~ e'.utxo.committed

/-- The block is known to be invalid, will be appended, or left nothing behind. -/
def SettlesCleanly (params : Params) (s : StateId) (p : IndexPtr) (e : Engine) : Prop :=
  ∃ st, e.states s = some st ∧
    (st.status.invalid = true ∨ Appendable params st p e ∨
      inserted e.utxo.pending ~ removed e.utxo.pending)

/-- After the checks of a block on a settled database. -/
theorem checkBlock_spec (ps : Params) (split : ChunkSplit) (order : List ℕ) (hs : e.states s = some st)
    (hp : st.blockIndex = some p) (hi : e.utxo.Idle) :
    ∃ st', (e.checkBlock ps s split order).states s = some st' ∧ st.SameBlock st' ∧
      (e.checkBlock ps s split order).utxo.Accounted ∧
      (e.checkBlock ps s split order).shuttingDown = e.shuttingDown := by
  simp only [checkBlock, hs, hp]
  exact ⟨_, Function.update_self .., sameBlock_checkBlock ..,
    checkBlock_accounted _ _ st _ split order hi.accounted, trivial⟩

/-- Working and committed map are equal exactly when the pending changes cancel out. -/
theorem working_perm_committed_iff {db : UnspentOutputDatabase} (h : db.Accounted) :
    db.working ~ db.committed ↔ inserted db.pending ~ removed db.pending := by
  constructor
  · intro hw
    exact ((List.perm_append_left_iff db.working).mp (h.trans (hw.symm.append_right _))).symm
  · intro hc
    exact (List.perm_append_right_iff _).mp (h.trans (hc.append_left _))

/-- Exactly when the block is found invalid early, is appended, or changed nothing. -/
theorem validateBlock_atomic_iff {split : ChunkSplit} {order : List ℕ} {e' : Engine}
    (hidle : e.utxo.Idle) (hrun : e.shuttingDown = false) (hs : e.states s = some st)
    (hp : st.blockIndex = some p) (hv : st.checkValidityOnly = false)
    (h : validateBlock ps s split order e = .ok e') :
    Atomic st p (e.checkBlock ps s split order) e' ↔
      SettlesCleanly ps s p (e.checkBlock ps s split order) := by
  obtain ⟨st', hs', hsame, hacc, hrun'⟩ := checkBlock_spec ps split order hs hp hidle
  set e1 := e.checkBlock ps s split order
  obtain ⟨r, hr, validating, children, states, flags, rfl⟩ := processNewBlock_eq (hrun'.trans hrun) hs'
    (hsame.blockIndex.trans hp) (hsame.checkValidityOnly.trans hv) h
  have hst : ∀ q : BlockValidationState → Prop, (∃ st, e1.states s = some st ∧ q st) ↔ q st' :=
    fun q => by
    simp [hs']
  unfold SettlesCleanly Atomic Appended
  rw [hst, ← hsame.blockId]
  rcases settleBlock_cases hr with ⟨hinv, -, hidle', -, -⟩ | ⟨-, happ, -, hdone, -⟩ | ⟨hval, hnot,
    -, hsame'⟩
  · exact iff_of_true (.inr (hidle'.1 ▸ .refl _)) (.inl hinv)
  · exact iff_of_true (.inl hdone) (.inr (.inl happ))
  · -- the block is dropped with its changes still in the working map
    rw [hsame', working_perm_committed_iff hacc]
    have hkept : e1.utxo ≠ e1.utxo.blockFinished st'.blockId (e1 p).nHeight st'.blockId := fun heq => by
      have hl := congrArg (fun db => db.settled.length) heq
      simp [blockFinished] at hl
    simp [hkept, hval, hnot]

/-! A small chain to run the engine on: the genesis block is validated, and one block more
is on the header chain and about to be checked. -/

def sampleParams : Params where
  verify _ _ _ _ := .ok 1
  nSubsidyHalvingInterval := 210000
  blockSigCheckAcceptLimit := 10
  hardwareConcurrency := 4
  regtest := false

/-- The unspent outputs of the sample chain, with the genesis block as the last one finished. -/
def sampleUtxo (outputs : List UnspentOutput) : UnspentOutputDatabase where
  committed := outputs
  working := outputs
  blockheight := 0
  blockId := 1
  rejectedBlocks := []
  pending := []
  settled := []

/-- The engine with the block's state under the name `0`; its index is object `1`. -/
def sampleEngine (outputs : List UnspentOutput) (st : BlockValidationState) : Engine where
  db :=
    { index := fun q =>
        if q = 0 then { phashBlock := 1, pprev := none, nHeight := 0, validity := BLOCK_VALID_SCRIPTS }
        else { phashBlock := 2, pprev := some 0, nHeight := 1, validity := BLOCK_VALID_TREE, haveData := true }
      byHash := fun _ => none
      headersChain := some 1
      headerChainTips := [1] }
  blocks q := if q = 1 then some st.block else none
  undoBlocks _ := none
  utxo := sampleUtxo outputs
  blockchain := some 0
  tip := some 0
  tipFlags := {}
  states s := if s = 0 then some st else none
  nextState := 1
  blocksBeingValidated := [(st.blockId, 0)]
  orphanBlocks := []
  chainTipChildren := []
  lastFullBlockScheduled := 1
  fetchFeeForMetaBlocks := false
  jobs := []
  shuttingDown := false

/-- The state of a block with the given transactions, each at its offset. -/
def sampleState (transactions : List PlacedTx) : BlockValidationState where
  block :=
    { blockId := 2, previousBlockId := 1, size := 500, transactions := transactions
      walk := transactions.map PlacedTx.toWalk }
  blockId := 2
  blockIndex := some 1
  fetchFees := true
  status := { validHeader := true, validTree := true, validChainHeaders := true, validParent := true }

def sampleCoinbase (value : ℤ) : PlacedTx where
  tx :=
    { hash := 3, nVersion := 1, vin := [⟨⟨0, 0xFFFFFFFF⟩, [1, 1], 0xFFFFFFFF⟩], vout := [⟨value, []⟩]
      nLockTime := 0, size := 100 }
  offsetInBlock := 81

/-- A transaction that spends the first output of the sample coinbase. -/
def sampleSpend : PlacedTx where
  tx :=
    { hash := 4, nVersion := 1, vin := [⟨⟨3, 0⟩, [], 0xFFFFFFFF⟩], vout := [⟨50 * COIN, []⟩]
      nLockTime := 0, size := 100 }
  offsetInBlock := 181

/-- A block that spends its own coinbase. -/
def sampleSpending : BlockValidationState := sampleState [sampleCoinbase (50 * COIN), sampleSpend]

/-- The engine before that block. -/
def beforeSpending : Engine := sampleEngine [] sampleSpending

/-- A coinbase that takes sixty coins is refused, and stays in the working map. -/
theorem validateBlock_not_atomic :
    ∃ e', validateBlock sampleParams 0 ⟨1,
      1⟩ [0] (sampleEngine [] (sampleState [sampleCoinbase (60 * COIN)])) = .ok e' ∧
      e'.blockchain = some 0 ∧ e'.utxo.working = [⟨3, 0, 1, 81⟩] ∧ e'.utxo.committed = [] ∧
      ¬ Atomic (sampleState [sampleCoinbase (60 * COIN)]) 1
        ((sampleEngine [] (sampleState [sampleCoinbase (60 * COIN)])).checkBlock sampleParams 0 ⟨1, 1⟩ [0]) e' := by
  refine ⟨_, rfl, by decide, by decide, by decide, ?_⟩
  rintro (⟨hcn, -⟩ | hperm)
  · revert hcn
    decide
  · revert hperm
    decide

theorem validateBlock_atomic_iff_sample :
    ∃ e', validateBlock sampleParams 0 ⟨2, 1⟩ [1, 0] beforeSpending = .ok e' ∧
      e'.blockchain = some 1 ∧
      (Atomic sampleSpending 1 (beforeSpending.checkBlock sampleParams 0 ⟨2, 1⟩ [1, 0]) e' ↔
        SettlesCleanly sampleParams 0 1
          (beforeSpending.checkBlock sampleParams 0 ⟨2, 1⟩ [1, 0])) := by
  refine ⟨_, rfl, by decide, ?_⟩
  exact validateBlock_atomic_iff ⟨rfl, rfl⟩ rfl rfl rfl rfl rfl

end Engine

end FloweeHub.Validation
