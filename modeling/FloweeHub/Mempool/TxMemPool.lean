import FloweeHub.Lib.Worklist
import FloweeHub.Mempool.DoubleSpendProofStorage
import FloweeHub.Mempool.ProofCreation
import Mathlib.Data.BitVec

/-! The mempool, by id (`mapTx`), by spent outputs (`mapNextTx`), and by parents and children
(`mapLinks`). There is no result where an assertion fails. Iterators are ids, a `setEntries` is a
list without duplicates, and fees are `int64_t`. Expiry, the size limit and fee estimates are left
out. -/

namespace FloweeHub

open Lib

/-- A transaction that was parsed: it has bytes, and its id is in none of its inputs. -/
structure PoolTx extends Transaction where
  size_pos : 0 < size
  other_ids : ∀ txin ∈ vin, txin.prevout.hash ≠ hash
  index_lt : ∀ txin ∈ vin, txin.prevout.n < 2 ^ 32

/-- An entry with the totals of its descendants. -/
structure TxMemPoolEntry where
  tx : PoolTx
  nFee : BitVec 64
  nTxSize : ℕ
  feeDelta : BitVec 64
  nCountWithDescendants : ℤ
  nSizeWithDescendants : ℤ
  nModFeesWithDescendants : BitVec 64
  dsproof : ℤ

namespace TxMemPoolEntry

/-- The constructor that validation uses; it stores the fee in the entry later. -/
def ofTx (tx : PoolTx) (nFee : BitVec 64) : TxMemPoolEntry := ⟨tx, nFee, tx.size, 0, 1, tx.size, 0, -1⟩

def ofFee (tx : PoolTx) (nFee : BitVec 64) : TxMemPoolEntry :=
  { ofTx tx nFee with nModFeesWithDescendants := nFee }

variable (e : TxMemPoolEntry)

def GetModifiedFee : BitVec 64 := e.nFee + e.feeDelta

def IsDirty : Bool := e.nCountWithDescendants = 0

def UpdateFeeDelta (newFeeDelta : BitVec 64) : TxMemPoolEntry :=
  { e with
    nModFeesWithDescendants := e.nModFeesWithDescendants + (newFeeDelta - e.feeDelta)
    feeDelta := newFeeDelta }

def changed (modifySize : ℤ) (modifyFee : BitVec 64) (modifyCount : ℤ) : TxMemPoolEntry :=
  { e with
    nSizeWithDescendants := e.nSizeWithDescendants + modifySize
    nModFeesWithDescendants := e.nModFeesWithDescendants + modifyFee
    nCountWithDescendants := e.nCountWithDescendants + modifyCount }

def UpdateState (modifySize : ℤ) (modifyFee : BitVec 64) (modifyCount : ℤ) : Option TxMemPoolEntry :=
  if e.IsDirty then some e
  else if 0 < e.nSizeWithDescendants + modifySize ∧ 0 < e.nCountWithDescendants + modifyCount then
    some (e.changed modifySize modifyFee modifyCount)
  else none

end TxMemPoolEntry

/-- The direct relatives of an entry, by id. -/
structure TxLinks where
  parents : List Uint256 := []
  children : List Uint256 := []

/-- An input: a transaction and the index in it. -/
structure InPoint where
  tx : PoolTx
  n : ℕ

/-- The tables, by the names of the source. -/
structure TxMemPool where
  mapTx : Table Uint256 TxMemPoolEntry
  mapLinks : Table Uint256 TxLinks
  mapNextTx : Table OutPoint InPoint
  mapDeltas : Table Uint256 (BitVec 64)
  dspStorage : DoubleSpendProofStorage

/-- The hash function, and the check of a signature. -/
structure MempoolEnv where
  Hash : Bytes → Uint256
  verify : DoubleSpendProof.Verify

abbrev Utxo := OutPoint → Option TxOut

namespace TxMemPool

variable (env : MempoolEnv) (pool : TxMemPool)

def empty : TxMemPool := ⟨∅, ∅, ∅, ∅, .empty⟩

variable (entry : Uint256)

def GetMemPoolParents : Option (List Uint256) := (pool.mapLinks.lookup entry).map (·.parents)

def GetMemPoolChildren : Option (List Uint256) := (pool.mapLinks.lookup entry).map (·.children)

/-- Members of a set are inserted once and erased. -/
def setMember (add : Bool) (a : Uint256) (s : List Uint256) : List Uint256 :=
  if add then s.insert a else s.erase a

def UpdateChild (entry child : Uint256) (add : Bool) : TxMemPool :=
  { pool with
    mapLinks := pool.mapLinks.modify entry {} fun links =>
      { links with children := setMember add child links.children } }

def UpdateParent (entry parent : Uint256) (add : Bool) : TxMemPool :=
  { pool with
    mapLinks := pool.mapLinks.modify entry {} fun links =>
      { links with parents := setMember add parent links.parents } }

def modifyTotals (size : ℤ) (fee : BitVec 64) (count : ℤ) : Option TxMemPool :=
  (pool.mapTx.update? entry fun e => e.UpdateState size fee count).map fun mapTx =>
    { pool with mapTx := mapTx }

/-- The turns that a walk over all entries takes. -/
def turns : ℕ := pool.mapTx.entries.length

def ancestorsFrom (parentHashes : List Uint256) : Option (List Uint256) :=
  Worklist.walk pool.GetMemPoolParents pool.turns parentHashes []

def searchParents (tx : PoolTx) : List Uint256 :=
  (tx.vin.map fun txin => txin.prevout.hash).dedup.filter (· ∈ pool.mapTx)

/-- `CalculateMemPoolAncestors` without limits for an entry of the mempool. -/
def CalculateMemPoolAncestors : Option (List Uint256) :=
  (pool.GetMemPoolParents entry).bind pool.ancestorsFrom

def UpdateAncestorsOf (add : Bool) (it : Uint256) (setAncestors : List Uint256) : Option TxMemPool :=
  (pool.GetMemPoolParents it).bind fun parentIters => (pool.mapTx.lookup it).bind fun e =>
    let pool := parentIters.foldl (fun pool piter => pool.UpdateChild piter it add) pool
    let updateCount : ℤ := if add then 1 else -1
    let updateFee := if add then e.GetModifiedFee else -e.GetModifiedFee
    setAncestors.foldlM (fun pool a =>
      pool.modifyTotals a (updateCount * e.nTxSize) updateFee updateCount) pool

def UpdateChildrenForRemoval (it : Uint256) : Option TxMemPool :=
  (pool.GetMemPoolChildren it).map fun children =>
    children.foldl (fun pool updateIt => pool.UpdateParent updateIt it false) pool

/-- The first loop of `UpdateForRemoveFromMempool` for one entry. -/
def leaveAncestors (removeIt : Uint256) : Option TxMemPool :=
  (pool.CalculateMemPoolAncestors removeIt).bind fun setAncestors =>
    pool.UpdateAncestorsOf false removeIt setAncestors

def UpdateForRemoveFromMempool (entriesToRemove : List Uint256) : Option TxMemPool :=
  (entriesToRemove.foldlM leaveAncestors pool).bind fun pool =>
    entriesToRemove.foldlM UpdateChildrenForRemoval pool

/-- The assertions of `DoubleSpendProofStorage::remove` on the list of the proof's transaction. -/
def removeAsserts (s : DoubleSpendProofStorage) (id : ℤ) : Bool :=
  match s.proofs.lookup id with
  | none => true
  | some proof =>
    if id ∈ s.orphans then
      match s.prevTxIdLookupTable.lookup (UODB.GetCheapHash proof.prevTxId) with
      | none => true
      | some queue => if queue.length = 1 then queue = [id] else id ∈ queue
    else true

def removeProof (id : ℤ) : Option TxMemPool :=
  if removeAsserts pool.dspStorage id then
    some { pool with dspStorage := pool.dspStorage.remove env.Hash id } else none

def lookups (utxo : Utxo) : DoubleSpendProof.Lookups where
  tx hash := (pool.mapTx.lookup hash).map (·.tx.toTransaction)
  spending prevout := (pool.mapNextTx.lookup prevout).map (·.tx.toTransaction)
  utxo := utxo

def emptyProof : DoubleSpendProof := ⟨0, -1, ⟨0, 0, 0, 0, 0, 0, []⟩, ⟨0, 0, 0, 0, 0, 0, []⟩⟩

/-- A proof that a peer sent; it goes to the entry that spends the output. -/
def addDoubleSpendProof (proof : DoubleSpendProof) : Option TxMemPool :=
  match pool.mapNextTx.lookup proof.prevOut with
  | none => some pool
  | some oldTx =>
    (pool.mapTx.lookup oldTx.tx.hash).map fun item =>
      if item.dsproof ≠ -1 then pool
      else
        match pool.dspStorage.add env.Hash proof with
        | none => pool
        | some (storage, id) =>
          { pool with dspStorage := storage, mapTx := pool.mapTx.insert oldTx.tx.hash { item with dsproof := id } }

/-- How `insertTx` ends. It is `stuck` if every proof id is in use: the search for a new one then
goes round for ever. -/
inductive Outcome
  | inserted
  | refused
  | doubleSpends (tx : PoolTx) (proofId : ℤ)
  | exception (message : String)
  | stuck

/-- The loop over the inputs returns or throws, or goes on with the orphans it found. -/
inductive Scan
  | stop (outcome : Outcome) (pool : TxMemPool)
  | pass (rescuedOrphans : List (ℤ × ℤ))

/-- A conflict with a transaction of the mempool, for which a proof is made. -/
def doubleSpend (entry : TxMemPoolEntry) (oldTx : InPoint) : Option Scan :=
  (pool.mapTx.lookup oldTx.tx.hash).map fun item =>
    if item.dsproof = -1 then
      match DoubleSpendProof.create env.Hash oldTx.tx.toTransaction entry.tx.toTransaction with
      | .error _ => .stop (.exception "Tx double spends another") pool
      | .ok proof =>
        match pool.dspStorage.add env.Hash proof with
        | none => .stop .stuck pool
        | some (storage, id) =>
          if id = -1 then .stop .refused pool
          else
            .stop (.doubleSpends oldTx.tx id)
              { pool with dspStorage := storage, mapTx := pool.mapTx.insert oldTx.tx.hash { item with dsproof := id } }
    else .stop (.doubleSpends oldTx.tx (-1)) pool

/-- A transaction of the mempool has the output. -/
def hasOutput (prevout : OutPoint) : Bool :=
  match pool.mapTx.lookup prevout.hash with
  | none => false
  | some e =>
    match e.tx.vout[prevout.n]? with
    | none => false
    | some txout => txout.nValue ≠ -1

def scanInputs (utxo : Utxo) (entry : TxMemPoolEntry) : List TxIn → List (ℤ × ℤ) → Option Scan
  | [], rescuedOrphans => some (.pass rescuedOrphans)
  | txin :: vin, rescuedOrphans =>
    (pool.dspStorage.findOrphans txin.prevout).bind fun orphans =>
      if orphans ≠ [] then
        if txin.prevout ∈ pool.mapNextTx then none
        else scanInputs utxo entry vin (rescuedOrphans ++ orphans)
      else
        match pool.mapNextTx.lookup txin.prevout with
        | some oldTx => pool.doubleSpend env entry oldTx
        | none =>
          if pool.hasOutput txin.prevout ∨ (utxo txin.prevout).isSome then
            scanInputs utxo entry vin rescuedOrphans
          else some (.stop .refused pool)

/-- The entry of a new transaction, with the fee delta that is kept for it. -/
def newEntry (hash : Uint256) (entry : TxMemPoolEntry) : TxMemPoolEntry :=
  match pool.mapDeltas.lookup hash with
  | some delta => if delta ≠ 0 then entry.UpdateFeeDelta delta else entry
  | none => entry

/-- The new entry, its links, and its share in its ancestors. -/
def addUnchecked (hash : Uint256) (entry : TxMemPoolEntry) : Option TxMemPool :=
  (pool.ancestorsFrom (pool.searchParents entry.tx)).bind fun setAncestors =>
    let pool : TxMemPool := { pool with
      mapTx := pool.mapTx.insert hash (pool.newEntry hash entry)
      mapLinks := pool.mapLinks.insert hash {}
      mapNextTx := entry.tx.vin.zipIdx.foldl (fun next e => next.insert e.1.prevout ⟨entry.tx, e.2⟩)
        pool.mapNextTx }
    let pool := (pool.searchParents entry.tx).foldl (fun pool phash =>
      pool.UpdateParent hash phash true) pool
    pool.UpdateAncestorsOf true hash setAncestors

/-- The loop over the orphans: the first valid one is used, the others are dropped. -/
def rescue (utxo : Utxo) (hash : Uint256) (entry : TxMemPoolEntry) :
    List (ℤ × ℤ) → TxMemPool → Option TxMemPool
  | [], pool => some pool
  | (proofId, _) :: rescuedOrphans, pool =>
    let dsp := (pool.dspStorage.proofs.lookup proofId).getD emptyProof
    (dsp.validate env.verify (pool.lookups utxo)).bind fun rc =>
      match rc with
      | .Valid =>
        rescuedOrphans.foldlM (fun pool o => pool.removeProof env o.1)
          { pool with
            dspStorage := pool.dspStorage.claimOrphan proofId
            mapTx := pool.mapTx.insert hash { entry with dsproof := proofId } }
      | .Invalid => (pool.removeProof env proofId).bind (rescue utxo hash entry rescuedOrphans)
      | _ => none

/-- Conflicts are looked for first, then the orphans for its inputs. -/
def insertTx (utxo : Utxo) (entry : TxMemPoolEntry) : Option (Outcome × TxMemPool) :=
  let hash := entry.tx.hash
  if entry.dsproof ≠ -1 then none
  else if hash ∈ pool.mapTx then some (.refused, pool)
  else
    (pool.scanInputs env utxo entry entry.tx.vin []).bind fun scan =>
      match scan with
      | .stop outcome pool => some (outcome, pool)
      | .pass rescuedOrphans =>
        (pool.addUnchecked hash entry).bind fun pool =>
          (rescue env utxo hash entry rescuedOrphans pool).map fun pool => (.inserted, pool)

def removeUnchecked (it : Uint256) : Option TxMemPool :=
  (pool.mapTx.lookup it).bind fun e =>
    (if e.dsproof ≠ -1 then pool.removeProof env e.dsproof else some pool).map fun pool =>
      { pool with
        mapNextTx := e.tx.vin.foldl (fun next txin => next.erase txin.prevout) pool.mapNextTx
        mapLinks := pool.mapLinks.erase it
        mapTx := pool.mapTx.erase it }

def RemoveStaged (stage : List Uint256) : Option TxMemPool :=
  (pool.UpdateForRemoveFromMempool stage).bind fun pool =>
    stage.foldlM (removeUnchecked env) pool

def CalculateDescendants (entryit : Uint256) (setDescendants : List Uint256) : Option (List Uint256) :=
  Worklist.walk pool.GetMemPoolChildren pool.turns (if entryit ∈ setDescendants then
    [] else [entryit]) setDescendants

variable (origTx : PoolTx)

def childrenOf : Option (List Uint256) :=
  (List.range origTx.vout.length).foldlM (fun txToRemove i =>
    match pool.mapNextTx.lookup ⟨origTx.hash, i⟩ with
    | none => some txToRemove
    | some next => if next.tx.hash ∈ pool.mapTx then some (txToRemove.insert next.tx.hash) else none) []

/-- The entries that `remove` takes out, without their descendants. -/
def toRemove (fRecursive : Bool) : Option (List Uint256) :=
  if origTx.hash ∈ pool.mapTx then some [origTx.hash]
  else if fRecursive then pool.childrenOf origTx
  else some []

/-- With `fRecursive` all descendants go as well. -/
def remove (fRecursive : Bool) : Option TxMemPool :=
  (pool.toRemove origTx fRecursive).bind fun txToRemove =>
    (if fRecursive then txToRemove.foldlM (fun all it => pool.CalculateDescendants it all) []
      else some txToRemove).bind
      (pool.RemoveStaged env)

def ClearPrioritisation (hash : Uint256) : TxMemPool :=
  { pool with mapDeltas := pool.mapDeltas.erase hash }

def removeConflict (tx : PoolTx) (txin : TxIn) : Option TxMemPool :=
  match pool.mapNextTx.lookup txin.prevout with
  | none => some pool
  | some conflict =>
    if conflict.tx.hash ≠ tx.hash then
      (pool.remove env conflict.tx true).map fun pool => pool.ClearPrioritisation conflict.tx.hash
    else some pool

def removeConflicts (tx : PoolTx) : Option TxMemPool :=
  tx.vin.foldlM (fun pool txin => removeConflict env pool tx txin) pool

def removeMined (tx : PoolTx) : Option TxMemPool :=
  (pool.remove env tx false).bind fun pool => (pool.removeConflicts env tx).map fun pool =>
    pool.ClearPrioritisation tx.hash

def removeForBlock (vtx : List PoolTx) : Option TxMemPool := vtx.foldlM (removeMined env) pool

/-- The delta is kept, and counted in the totals. -/
def PrioritiseTransaction (hash : Uint256) (nFeeDelta : BitVec 64) : Option TxMemPool :=
  let delta := (pool.mapDeltas.lookup hash).getD 0 + nFeeDelta
  let pool := { pool with mapDeltas := pool.mapDeltas.insert hash delta }
  match pool.mapTx.lookup hash with
  | none => some pool
  | some e =>
    let pool := { pool with mapTx := pool.mapTx.insert hash (e.UpdateFeeDelta delta) }
    (pool.CalculateMemPoolAncestors hash).bind fun setAncestors =>
      setAncestors.foldlM (fun pool a => pool.modifyTotals a 0 nFeeDelta 0) pool

end TxMemPool

end FloweeHub
