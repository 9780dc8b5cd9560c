import FloweeHub.Chain.Pow
import FloweeHub.Validation.ProcessNewBlock

/-! `blockHeaderValidated` places a block in the tree of headers, blames it or lets it wait among
the orphans. The header chain may move, and the validated chain follows. The memory for a new
`CBlockIndex` is a parameter; the counters of blocks in flight are left out. -/

namespace FloweeHub

namespace IndexHeap

def commonFrom (index : IndexHeap) : ℕ → Option IndexPtr → Option IndexPtr → Option IndexPtr
  | 0, pa, _ => pa
  | n + 1, pa, pb =>
    if pa = pb then pa
    else
      match pa, pb with
      | some a, some b => commonFrom index n (index a).pprev (index b).pprev
      | _, _ => pa

def lastCommonAncestor (index : IndexHeap) (pa pb : IndexPtr) : Option IndexPtr :=
  let ha := (index pa).nHeight
  let hb := (index pb).nHeight
  commonFrom index (ha.toNat + 1) (if hb < ha then index.GetAncestor pa hb else some pa)
    (if ha < hb then index.GetAncestor pb ha else some pb)

end IndexHeap

namespace Validation

/-- What is read of the chain parameters. -/
structure ChainParams where
  hashGenesisBlock : Uint256
  mapCheckpoints : List (ℤ × Uint256)

namespace BlockValidationState

def setValidParent (st : BlockValidationState) : BlockValidationState :=
  { st with status := { st.status with validParent := true } }

def setValidTree (st : BlockValidationState) : BlockValidationState :=
  { st with status := { st.status with validTree := true } }

end BlockValidationState

namespace Engine

variable (e : Engine)

def beingValidated (id : Uint256) : Option StateId := e.blocksBeingValidated.lookup id

def addChild (parent child : StateId) : Engine :=
  e.modifyState parent fun st => { st with chainChildren := st.chainChildren ++ [child] }

def connect (p parent : IndexPtr) : Engine :=
  let e := e.modifyIndex p fun b => { b with
    pprev := some parent
    nHeight := (e parent).nHeight + 1
    nChainWork := (e parent).nChainWork + GetBlockProof b.nBits }
  { e with db := { e.db with index := e.db.index.BuildSkip p } }

/-- Where `createBlockIndexFor` finds the parent. -/
def findPrev (prevId : Uint256) : Option IndexPtr :=
  match e.beingValidated prevId with
  | some t => (e.states t).bind BlockValidationState.blockIndex
  | none =>
    match e.db.byHash prevId with
    | some q => some q
    | none => e.db.headerChainTips.find? fun tip => (e tip).phashBlock = prevId

/-- Validity and failure are inherited; the test for `BLOCK_VALID_TREE` is one of a bit. -/
def inheritStatus (s : StateId) (p q : IndexPtr) : Engine :=
  if (e q).failed then
    (e.modifyIndex p fun b => { b with failedChild := true }).modifyState s fun st =>
      st.blockFailed 10 "bad-parent" .rejectInvalid false
  else if (e q).validity &&& BLOCK_VALID_TREE ≠ 0 then
    (e.modifyIndex p fun b => b.RaiseValidity BLOCK_VALID_TREE).modifyState s
      BlockValidationState.setValidTree
  else e

/-- The block joins the children of its parent, if that is being validated. -/
def joinParent (s : StateId) (prevId : Uint256) : Engine :=
  match e.beingValidated prevId with
  | some t => e.addChild t s
  | none => e

/-- The state gets an index object of its own, without a place so far. -/
def newIndex (s : StateId) (p : IndexPtr) (st : BlockValidationState) : Engine :=
  let prevId := st.block.previousBlockId
  let validParent := (e.beingValidated prevId).isNone &&
    (e.db.byHash prevId).any fun q => (e q).IsValid BLOCK_VALID_TRANSACTIONS
  let e := (e.joinParent s prevId).modifyIndex p fun _ =>
    { phashBlock := st.blockId
      pprev := e.findPrev prevId
      nHeight := -1
      nTime := st.block.nTime
      nBits := st.block.nBits
      validity := BLOCK_VALID_HEADER
      haveData := st.blockPos }
  e.modifyState s fun st =>
    { st with
      blockIndex := some p
      ownsIndex := true
      status := { st.status with validParent := st.status.validParent || validParent } }

variable (chain : ChainParams)

/-- A new object for the header, and its place. -/
def createBlockIndexFor (s : StateId) (p : IndexPtr) (st : BlockValidationState) : Engine :=
  let pprev := e.findPrev st.block.previousBlockId
  let e := e.newIndex s p st
  match pprev with
  | some q => if (e q).nHeight = -1 then e else (e.connect p q).inheritStatus s p q
  | none =>
    if st.blockId = chain.hashGenesisBlock then
      (e.modifyIndex p fun b => { b with nHeight := 0 }).modifyState s
        BlockValidationState.setValidParent
    else e

def adopt (parent orphan : StateId) : Engine :=
  match e.states parent, e.states orphan with
  | some par, some o =>
    let e := if par.chainChildren.contains orphan then e else e.addChild parent orphan
    match o.blockIndex, par.blockIndex with
    | some p, some q => e.connect p q
    | _, _ => e
  | _, _ => e

/-- One orphan is tried as a child of the newest generation. -/
def tryAdopt (parents : List StateId) (r : Engine × List StateId) (orphan : StateId) :
    Engine × List StateId :=
  match parents.find? fun parent => (r.1.states parent).map BlockValidationState.blockId =
      (r.1.states orphan).map fun st => st.block.previousBlockId with
  | some parent =>
    let e := r.1.adopt parent orphan
    ({ e with orphanBlocks := e.orphanBlocks.erase orphan }, r.2 ++ [orphan])
  | none => r

/-- Orphans whose parent has come are placed as well. -/
def startOrphanWithParent : ℕ → List StateId → Engine → Engine × List StateId
  | 0, _, e => (e, [])
  | n + 1, parents, e =>
    let r := e.orphanBlocks.foldl (tryAdopt parents) (e, [])
    if r.2 = [] then (r.1, [])
    else
      let rest := startOrphanWithParent n r.2 r.1
      (rest.1, r.2 ++ rest.2)

/-- The index object becomes part of `Blocks::Index`. An entry that is there already stays. -/
def ownIndex (s : StateId) (id : Uint256) (p : IndexPtr) : Engine :=
  let e := e.modifyState s fun st => { st with ownsIndex := false }
  let e := e.modifyIndex p fun b => b.RaiseValidity BLOCK_VALID_TREE
  { e with db := { e.db with byHash := fun h => if h = id ∧ e.db.byHash id = none then some p else e.db.byHash h } }

/-- There is a checkpoint at the block's height with another id. -/
def checkpointMismatch (b : BlockIndex) : Bool := chain.mapCheckpoints.any fun c =>
    c.1 = b.nHeight ∧ c.2 ≠ b.phashBlock

/-- Remember the number of transactions, and store the block if it should be. -/
def storeBlock (s : StateId) (st : BlockValidationState) (p : IndexPtr) : Engine :=
  let write := !(e p).haveData && st.saveGoodToDisk
  let stored := st.blockPos || write
  let e := e.modifyState s fun st => { st with blockPos := stored }
  let e := e.modifyIndex p fun b =>
    { b with nTx := st.block.transactions.length, haveData := b.haveData || stored }
  if write then { e with blocks := Function.update e.blocks p (some st.block) } else e

/-- One turn of the loop over the block and its adoptees, with the error for the caller. -/
def registerHeader (r : Engine × String) (s : StateId) : Engine × String :=
  match r.1.states s with
  | none => r
  | some st =>
    match st.blockIndex with
    | none => r
    | some p =>
      if st.checkValidityOnly then r
      else
        let e := if st.ownsIndex then r.1.ownIndex s st.blockId p else r.1
        let failed := checkpointMismatch chain (e p)
        let e := if failed then e.modifyIndex p fun b => { b with failedValid := true } else e
        let e := { e with db := (e.db.appendHeader p).2 }
        (if st.block.isFullBlock then e.storeBlock s st p else e,
          if failed then "Failed due to checkpoint" else r.2)

/-- How many blocks a reorganisation of the headers is taken to remove. -/
def reorgSize (currentHeaderTip : IndexPtr) : ℤ :=
  match e.blockchain with
  | none => 0
  | some tip =>
    if e.onHeaderChain tip then 0
    else (e.db.index.lastCommonAncestor currentHeaderTip tip).elim 0 fun c =>
      1 + e.height - (e c).nHeight

/-- What is done after the header chain has left its old tip. -/
def reorganise (params : Params) (currentHeaderTip : Chain) : Except String Engine :=
  match currentHeaderTip with
  | none => .ok e
  | some old =>
    if e.onHeaderChain old then .ok e
    else if 6 < e.reorgSize old ∧ params.regtest = false then .ok e
    else if 0 < e.reorgSize old then e.prepareChain.map fun e => { e with lastFullBlockScheduled := -1 }
    else .ok e

/-- The first block that is sent on needs parents that are fine. -/
def firstForward (p : IndexPtr) : Bool :=
  (e p).nHeight ≤ 1 || (e p).pprev.any fun q =>
    e.onBlockchain q || ((e.beingValidated (e q).phashBlock).bind e.states).any fun st =>
      st.status.validTree

/-- One turn of the loop that sends blocks on; with `forward` and `first`. -/
def forwardBlock (r : Engine × Bool × Bool) (s : StateId) : Engine × Bool × Bool :=
  let e := r.1
  match e.states s with
  | none => r
  | some st =>
    match st.blockIndex with
    | none => r
    | some p =>
      if !st.checkValidityOnly && !e.onHeaderChain p then r
      else
        let forward := (if r.2.2 then e.firstForward p else r.2.1) && st.block.isFullBlock
        if forward then
          let e := if st.checkValidityOnly then e else
            { e with
              blocksBeingValidated :=
                if (e.beingValidated st.blockId).isSome then e.blocksBeingValidated
                else e.blocksBeingValidated ++ [(st.blockId, s)]
              lastFullBlockScheduled := max e.lastFullBlockScheduled (e p).nHeight }
          ((e.modifyState s BlockValidationState.setValidTree).post (.checks2HaveParentHeaders s),
            true, false)
        else (e, false, false)

/-- The orphans that now have a way to the genesis block. -/
def adoptees (s : StateId) (st : BlockValidationState) : Engine × List StateId :=
  if st.checkValidityOnly then (e, []) else startOrphanWithParent e.orphanBlocks.length [s] e

/-- The block and its adoptees are registered. -/
def registered (s : StateId) (st : BlockValidationState) : Engine × String :=
  let adopted := e.adoptees s st
  (s :: adopted.2).foldl (registerHeader chain) (adopted.1, "")

variable (params : Params)

/-- Everything from the search for orphans on. -/
def acceptHeader (chain : ChainParams) (s : StateId) (st : BlockValidationState) (p : IndexPtr) :
    Except String (Engine × String) :=
  let registered := e.registered chain s st
  (registered.1.reorganise params e.headerChain).map fun e' =>
    if (e' p).nHeight - e'.height ≤ (params.hardwareConcurrency : ℤ) then
      (((s :: (e.adoptees s st).2).foldl forwardBlock (e', false, true)).1, registered.2)
    else (e', registered.2)

/-- What follows once the block has an index object. -/
def placeBlock (chain : ChainParams) (s : StateId) (hasFailed : Bool) (st : BlockValidationState)
    (p : IndexPtr) : Except String (Engine × String) :=
  if hasFailed || (e p).failed then
    if !st.checkValidityOnly && st.checkMerkleRoot then (handleFailedBlock s e).map fun e => (e, "")
    else .ok (e, "")
  else
    let e := e.modifyState s fun st => { st with
      flags := e.tipFlags, fetchFees := e.tipFlags.enableValidation || e.fetchFeeForMetaBlocks }
    if (e p).nHeight = -1 then
      .ok (if st.checkValidityOnly then
          e.modifyState s fun st =>
            st.blockFailed 100 "Block is an orphan, can't check" .rejectInternal false
        else { e with orphanBlocks := e.orphanBlocks ++ [s] }, "")
    else e.acceptHeader params chain s st p

/-- A block whose header is known gets to know its parent. -/
def recognise (s : StateId) (st : BlockValidationState) (p : IndexPtr) : Engine :=
  let e := match (e p).pprev with
    | none => e
    | some q =>
      match e.beingValidated st.block.previousBlockId with
      | some t => e.addChild t s
      | none =>
        if (e q).IsValid BLOCK_VALID_TRANSACTIONS then
          e.modifyState s BlockValidationState.setValidParent else e
  if (e p).nHeight = 0 then e.modifyState s BlockValidationState.setValidParent else e

/-- `blockHeaderValidated`, with the error that the caller of the engine is told. -/
def blockHeaderValidated (chain : ChainParams) (s : StateId) (fresh : IndexPtr) :
    Except String (Engine × String) :=
  match e.states s with
  | none => .ok (e, "")
  | some st =>
    if st.block.size < 80 then
      .ok (e.modifyState s fun st => { st with error := "Malformed block (too short)" }, "")
    else if e.shuttingDown then .ok (e, "")
    else
      match if st.status.invalid then none else e.beingValidated st.blockId with
      | some t => .ok (e.modifyState s fun st => { st with
          blockIndex := (e.states t).bind BlockValidationState.blockIndex }, "")
      | none =>
        match if st.checkMerkleRoot then e.db.byHash st.blockId else none with
        | some p =>
          let e := e.modifyState s fun st => { st with blockIndex := some p, ownsIndex := false }
          if (e p).failed then .ok (e, "Block failed previously, not rechecking")
          else if e.onBlockchain p then .ok (e, "")
          else (e.recognise s st p).placeBlock params chain s st.status.invalid st p
        | none => (e.createBlockIndexFor chain s fresh st).placeBlock params chain s st.status.invalid st fresh

end Engine

end Validation

end FloweeHub
