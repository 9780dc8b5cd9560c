import FloweeHub.Validation.Chunk

/-! The validation engine: what every stage shares, and the code that takes blocks off the validated
chain. A `fatal` error or an uncaught exception is an error of the whole step. -/

namespace FloweeHub.Validation

open Lib UnspentOutputDatabase Function

/-- The posts of the strand and of the workers. -/
inductive Job
  | checks1NoContext (s : StateId)
  | blockHeaderValidated (s : StateId)
  | checks2HaveParentHeaders (s : StateId)
  | updateUtxoAndStartValidation (s : StateId)
  | checkSignaturesChunk (s : StateId) (k : ℕ)
  | processNewBlock (s : StateId)
  | findMoreJobs
deriving DecidableEq, Repr

def Job.state : Job → Option StateId
  | .checks1NoContext s | .blockHeaderValidated s | .checks2HaveParentHeaders s
  | .updateUtxoAndStartValidation s | .checkSignaturesChunk s _ | .processNewBlock s => some s
  | .findMoreJobs => none

/-- The state that all blocks share. -/
structure Engine where
  db : BlocksDB
  /-- The block files, by the index object that points into them. -/
  blocks : IndexPtr → Option FastBlock
  undoBlocks : IndexPtr → Option Bytes
  utxo : UnspentOutputDatabase
  blockchain : Chain
  /-- The copy of the tip that other threads read. -/
  tip : Option IndexPtr
  tipFlags : ValidationFlags
  states : StateId → Option BlockValidationState
  nextState : StateId
  blocksBeingValidated : List (Uint256 × StateId)
  orphanBlocks : List StateId
  chainTipChildren : List StateId
  lastFullBlockScheduled : ℤ
  fetchFeeForMetaBlocks : Bool
  jobs : List Job
  shuttingDown : Bool

/-- What does not change while the engine runs. -/
structure Params where
  verify : VerifyScript
  nSubsidyHalvingInterval : ℕ
  blockSigCheckAcceptLimit : ℕ
  hardwareConcurrency : ℕ
  regtest : Bool

def GetBlockSubsidy (p : Params) (nHeight : ℤ) : ℤ :=
  let halvings := nHeight / p.nSubsidyHalvingInterval
  if 64 ≤ halvings then 0 else 50 * COIN / 2 ^ halvings.toNat

namespace Engine

variable (e : Engine)

def headerChain : Chain := e.db.headersChain

def index (p : IndexPtr) : BlockIndex := e.db.index p

/-- `e p` is what `p` points to. -/
instance : CoeFun Engine fun _ => IndexPtr → BlockIndex := ⟨index⟩

def onHeaderChain (p : IndexPtr) : Bool := e.headerChain.Contains e.db.index p

def onBlockchain (p : IndexPtr) : Bool := e.blockchain.Contains e.db.index p

def height : ℤ := e.blockchain.Height e.db.index

def modifyIndex (p : IndexPtr) (f : BlockIndex → BlockIndex) : Engine :=
  { e with db := { e.db with index := e.db.index.modify p f } }

def modifyState (s : StateId) (f : BlockValidationState → BlockValidationState) : Engine :=
  { e with states := update e.states s ((e.states s).map f) }

def post (j : Job) : Engine := { e with jobs := e.jobs ++ [j] }

/-- A weak pointer to a state can be locked while some map or job holds the state. -/
def alive (s : StateId) : Bool :=
  e.blocksBeingValidated.any (fun b => b.2 = s) || e.orphanBlocks.contains s || e.jobs.any fun j =>
    j.state = some s

/-- Tell one child that its parent is on the chain. -/
def signalChild (e : Engine) (child : StateId) : Engine :=
  if e.alive child then
    match e.states child with
    | none => e
    | some st =>
      let e := e.modifyState child fun st => { st with status := { st.status with validParent := true } }
      if st.status.validChainHeaders then e.post (.updateUtxoAndStartValidation child) else e
  else e

def signalChildren (children : List StateId) : Engine := children.foldl signalChild e

/-- Mark a state and those that wait for it; their number bounds the depth. -/
def recursivelyMark : ℕ → Engine → StateId → Engine
  | 0, e, _ => e
  | n + 1, e, s =>
    match e.states s with
    | none => e
    | some st =>
      let e := e.modifyState s fun st => { st with status := { st.status with invalid := true } }
      (st.chainChildren.filter e.alive).foldl (recursivelyMark n) e

/-- The block at the record's height of the header chain is opened; `-1` when there is none. -/
def unspentOutputData (u : UnspentOutput) : Except String TxOut :=
  match e.headerChain.at' e.db.index u.blockHeight with
  | none => .ok ⟨-1, []⟩
  | some q =>
    match e.blocks q with
    | none => .error "Failed to load block"
    | some block =>
      .ok (if block.isFullBlock then (block.outputAt u.offsetInBlock u.outIndex).getD ⟨-1, []⟩
        else ⟨-1, []⟩)

/-- `prevTxVersion` of the same object; `-1` when nothing could be read. -/
def prevTxVersion (u : UnspentOutput) : ℤ :=
  (((e.headerChain.at' e.db.index u.blockHeight).bind e.blocks).bind fun block =>
    if block.isFullBlock then block.txVersionAt u.offsetInBlock else none).getD (-1)

def checkEnv (params : Params) (p : IndexPtr) : CheckEnv where
  read := e.unspentOutputData
  verify := params.verify
  medianTimePast h :=
    ((e.db.index.GetAncestor p h).map fun q => (e.db.index.GetMedianTimePast q : ℤ)).getD 0

/-- Both stages for the block of one state while no other job runs. -/
def checkBlock (params : Params) (s : StateId) (split : ChunkSplit) (order : List ℕ) : Engine :=
  match e.states s with
  | none => e
  | some st =>
    match st.blockIndex with
    | none => e
    | some p =>
      let r := st.checkBlock (e.checkEnv params p) (e p).nHeight ((e p).pprev = none) split order e.utxo
      { e with utxo := r.1, states := update e.states s (some r.2) }

variable (owner : Uint256)

/-- The first pass over the undo items: what the block spent is inserted again. -/
def undoSpent (items : List UndoItem) (utxo : UnspentOutputDatabase) :
    UnspentOutputDatabase :=
  (items.filter fun i => !i.isInsert).foldl (fun db i =>
    db.insert owner ⟨i.prevTxId, i.outputIndex, i.blockHeight, i.offsetInBlock⟩) utxo

/-- Remove one inserted output; the flag tells whether everything was found so far. -/
def undoInsert (r : Bool × UnspentOutputDatabase) (i : UndoItem) : Bool × UnspentOutputDatabase :=
  let removed := r.2.remove owner ⟨i.prevTxId, i.outputIndex⟩
  (r.1 && removed.1.isValid, removed.2)

def undoInserted (items : List UndoItem) (utxo : UnspentOutputDatabase) : Bool × UnspentOutputDatabase :=
  (items.filter UndoItem.isInsert).foldl (undoInsert owner) (true, utxo)

/-- `disconnectTip`; the flag is `false` when the undo data is missing or did not apply. -/
def disconnectTip (p : IndexPtr) : Except String (Bool × Engine) :=
  let index := e.index p
  match if index.haveUndo then e.undoBlocks p else none with
  | none => .ok (false, e)
  | some [] => .ok (false, e)
  | some data =>
    match index.pprev with
    | none => .error "disconnectTip: no previous block"
    | some pprev =>
      let items := FastUndoBlock.items data
      let r := undoInserted index.phashBlock items (undoSpent index.phashBlock items e.utxo)
      let prev := e.index pprev
      .ok (r.1, { e with
        utxo := r.2.blockFinished index.phashBlock prev.nHeight prev.phashBlock
        blockchain := some pprev })

/-- Blocks are taken off while the tip is not on the header chain. -/
def disconnectWhile : ℕ → Engine → Except String Engine
  | 0, e => .ok e
  | n + 1, e =>
    match e.blockchain with
    | none => .ok e
    | some p =>
      if e.onHeaderChain p then .ok e
      else
        match e.blocks p with
        | none => .error "Can't undo the tip because I can't find it on disk"
        | some block =>
          if block.size = 0 then .error "got no block, can't continue."
          else
            (e.disconnectTip p).bind fun r =>
              if r.1 then disconnectWhile n { r.2 with tip := (r.2 p).pprev }
              else .error "Failed to disconnect block"

/-- Take the blocks off the validated chain that are no longer on the header chain. -/
def prepareChain : Except String Engine :=
  if e.height ≤ 0 then .ok e else disconnectWhile (e.height.toNat + 1) e

/-! ### What leaves the unspent outputs alone -/

section Frame

variable {e} {p : IndexPtr} {e' : Engine}

@[simp] theorem modifyIndex_utxo (p : IndexPtr) (f : BlockIndex → BlockIndex) :
    (e.modifyIndex p f).utxo = e.utxo := rfl

@[simp] theorem modifyState_utxo (s : StateId) (f : BlockValidationState → BlockValidationState) :
    (e.modifyState s f).utxo = e.utxo := rfl

@[simp] theorem modifyIndex_self (p : IndexPtr) (f : BlockIndex → BlockIndex) :
    (e.modifyIndex p f).index p = f (e p) := IndexHeap.modify_self ..

theorem modifyIndex_of_ne {q : IndexPtr} (f : BlockIndex → BlockIndex) (h : q ≠ p) :
    (e.modifyIndex p f).index q = e.index q := IndexHeap.modify_of_ne _ _ h

@[simp] theorem modifyIndex_states (p : IndexPtr) (f : BlockIndex → BlockIndex) :
    (e.modifyIndex p f).states = e.states := rfl

@[simp] theorem modifyState_self (s : StateId) (f : BlockValidationState → BlockValidationState) :
    (e.modifyState s f).states s = (e.states s).map f := update_self ..

theorem modifyState_of_ne {s t : StateId} (f : BlockValidationState → BlockValidationState) (h : t ≠ s) :
    (e.modifyState s f).states t = e.states t := update_of_ne h ..

@[simp] theorem modifyState_index (s : StateId) (f : BlockValidationState → BlockValidationState) :
    (e.modifyState s f).index = e.index := rfl

@[simp] theorem post_utxo (j : Job) : (e.post j).utxo = e.utxo := rfl

theorem signalChildren_frame (children : List StateId) (e : Engine) :
    ∃ states jobs, e.signalChildren children = { e with states := states, jobs := jobs } := by
  unfold signalChildren
  induction children generalizing e with
  | nil => exact ⟨_, _, rfl⟩
  | cons c cs ih =>
    have hone : ∃ states jobs, e.signalChild c = { e with states := states, jobs := jobs } := by
      unfold signalChild
      split_ifs
      · split
        · exact ⟨_, _, rfl⟩
        · split_ifs <;> exact ⟨_, _, rfl⟩
      · exact ⟨_, _, rfl⟩
    obtain ⟨states, jobs, hone⟩ := hone
    rw [List.foldl_cons, hone]
    obtain ⟨states', jobs', h⟩ := ih { e with states := states, jobs := jobs }
    exact ⟨states', jobs', h⟩

@[simp] theorem signalChildren_utxo (children : List StateId) :
    (e.signalChildren children).utxo = e.utxo := by
  obtain ⟨states, jobs, h⟩ := signalChildren_frame children e
  rw [h]

theorem recursivelyMark_frame (n : ℕ) (e : Engine) (s : StateId) :
    ∃ states, recursivelyMark n e s = { e with states := states } := by
  induction n generalizing e s with
  | zero => exact ⟨_, rfl⟩
  | succ n ih =>
    have hall : ∀ (l : List StateId) (e : Engine),
        ∃ states, l.foldl (recursivelyMark n) e = { e with states := states } := by
      intro l
      induction l with
      | nil => exact fun e => ⟨_, rfl⟩
      | cons s l ihl =>
        intro e
        obtain ⟨states, h⟩ := ih e s
        obtain ⟨states', h'⟩ := ihl { e with states := states }
        exact ⟨states', by rw [List.foldl_cons, h, h']⟩
    unfold recursivelyMark
    cases e.states s with
    | none => exact ⟨_, rfl⟩
    | some st =>
      obtain ⟨states, h⟩ := hall (st.chainChildren.filter _) (e.modifyState s _)
      exact ⟨states, h⟩

/-- What taking a block off the chain does to the unspent outputs. -/
def undoBlock (owner : Uint256) (items : List UndoItem) (height : ℤ) (id : Uint256)
    (utxo : UnspentOutputDatabase) : UnspentOutputDatabase :=
  (undoInserted owner items (undoSpent owner items utxo)).2.blockFinished owner height id

variable {Q : UnspentOutputDatabase → Prop} {r : Bool × Engine} {n : ℕ}

section

variable (hundo : ∀ db owner items height id, Q db → Q (undoBlock owner items height id db))
include hundo

/-- One block is taken off. -/
theorem disconnectTip_preserves (h : e.disconnectTip p = .ok r) (hQ : Q e.utxo) : Q r.2.utxo := by
  unfold disconnectTip at h
  dsimp only at h
  split at h
  · cases h; exact hQ
  · cases h; exact hQ
  · split at h
    · cases h
    · cases h
      exact hundo _ _ _ _ _ hQ

/-- Blocks are taken off until the chain follows the headers. -/
theorem disconnectWhile_preserves (h : disconnectWhile n e = .ok e') (hQ : Q e.utxo) : Q e'.utxo := by
  induction n generalizing e with
  | zero =>
    obtain rfl : e = e' := by simpa [disconnectWhile] using h
    exact hQ
  | succ n ih =>
    unfold disconnectWhile at h
    split at h
    · cases h; exact hQ
    · split_ifs at h
      · cases h; exact hQ
      · split at h
        · cases h
        · split_ifs at h
          obtain ⟨r, hr, hrest⟩ := Guards.bind_eq_ok_iff.mp h
          split_ifs at hrest
          exact ih hrest (disconnectTip_preserves hundo hr hQ)

/-- All that `prepareChain` does to the unspent outputs is to undo blocks. -/
theorem prepareChain_preserves (h : e.prepareChain = .ok e') (hQ : Q e.utxo) : Q e'.utxo := by
  unfold prepareChain at h
  split_ifs at h
  · cases h; exact hQ
  · exact disconnectWhile_preserves hundo h hQ

end

section Keeps

variable {α : Type*} {g : Engine → α}
  (hg : ∀ e utxo blockchain tip, g { e with utxo := utxo, blockchain := blockchain, tip := tip } = g e)

include hg

theorem disconnectTip_keeps {p : IndexPtr} (h : e.disconnectTip p = .ok r) : g r.2 = g e := by
  unfold disconnectTip at h
  dsimp only at h
  split at h
  · cases h; rfl
  · cases h; rfl
  · split at h <;> cases h
    exact hg e _ _ e.tip

theorem disconnectWhile_keeps {e' : Engine} (h : disconnectWhile n e = .ok e') : g e' = g e := by
  induction n generalizing e with
  | zero =>
    obtain rfl : e = e' := by simpa [disconnectWhile] using h
    rfl
  | succ n ih =>
    unfold disconnectWhile at h
    split at h
    · cases h; rfl
    · split_ifs at h
      · cases h; rfl
      · split at h
        · cases h
        · split_ifs at h
          obtain ⟨r, hr, hrest⟩ := Guards.bind_eq_ok_iff.mp h
          split_ifs at hrest
          exact (ih hrest).trans ((hg r.2 r.2.utxo r.2.blockchain _).trans (disconnectTip_keeps hg hr))

/-- All that `prepareChain` changes are the unspent outputs, the validated chain and its tip. -/
theorem prepareChain_keeps {e' : Engine} (h : e.prepareChain = .ok e') : g e' = g e := by
  unfold prepareChain at h
  split_ifs at h
  · cases h; rfl
  · exact disconnectWhile_keeps hg h

end Keeps

theorem disconnectTip_db (h : e.disconnectTip p = .ok r) : r.2.db = e.db :=
  disconnectTip_keeps (fun _ _ _ _ => rfl) h

theorem prepareChain_db (h : e.prepareChain = .ok e') : e'.db = e.db :=
  prepareChain_keeps (fun _ _ _ _ => rfl) h

/-- A tip that is on the header chain afterwards was there before, and nothing is undone. -/
theorem prepareChain_stays (h : e.prepareChain = .ok e')
    (hstay : ∀ q, e.blockchain = some q → e'.onHeaderChain q) : e' = e := by
  unfold prepareChain at h
  split_ifs at h
  · cases h; rfl
  · have hdb : e'.db = e.db := disconnectWhile_keeps (fun _ _ _ _ => rfl) h
    unfold disconnectWhile at h
    split at h
    · cases h; rfl
    next q hq =>
      have hon : e.onHeaderChain q := by
        have := hstay q hq
        unfold onHeaderChain headerChain at this ⊢
        rwa [hdb] at this
      rw [if_pos hon] at h
      cases h
      rfl

section Undo

variable {α : Type*} {g : UnspentOutputDatabase → α}
  (hg : ∀ db working pending, g { db with working := working, pending := pending } = g db)

include hg

theorem undoSpent_keeps (owner : Uint256) (items : List UndoItem) (db : UnspentOutputDatabase) :
    g (undoSpent owner items db) = g db := by
  unfold undoSpent
  generalize items.filter (fun i => !i.isInsert) = l
  induction l generalizing db with
  | nil => rfl
  | cons i l ih => exact (ih _).trans (hg ..)

theorem undoInserted_keeps (owner : Uint256) (items : List UndoItem) (db : UnspentOutputDatabase) :
    g (undoInserted owner items db).2 = g db := by
  unfold undoInserted
  generalize items.filter UndoItem.isInsert = l
  generalize true = ok
  induction l generalizing db ok with
  | nil => rfl
  | cons i l ih =>
    refine (ih _ _).trans ?_
    rw [remove_frame]
    exact hg ..

end Undo

theorem prepareChain_rejectedBlocks (h : e.prepareChain = .ok e') :
    e'.utxo.rejectedBlocks = e.utxo.rejectedBlocks :=
  prepareChain_preserves (Q := fun db => db.rejectedBlocks = e.utxo.rejectedBlocks)
    (fun _ _ _ _ _ hdb => ((undoInserted_keeps (g := rejectedBlocks) (fun _ _ _ => rfl) ..).trans
      (undoSpent_keeps (g := rejectedBlocks) (fun _ _ _ => rfl) ..)).trans hdb) h rfl

theorem undoBlock_settled (db : UnspentOutputDatabase) (owner : Uint256) (items : List UndoItem)
    (height : ℤ) (id : Uint256) : db.settled <+: (undoBlock owner items height id db).settled := by
  have hset : (undoInserted owner items (undoSpent owner items db)).2.settled = db.settled :=
    (undoInserted_keeps (g := settled) (fun _ _ _ => rfl) ..).trans
      (undoSpent_keeps (g := settled) (fun _ _ _ => rfl) ..)
  simp only [undoBlock, blockFinished, hset]
  exact List.prefix_append ..

end Frame

end Engine

end FloweeHub.Validation
