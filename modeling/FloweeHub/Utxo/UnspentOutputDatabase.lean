import FloweeHub.Lib.KeyedBag
import FloweeHub.Primitives.Transaction

/-! The unspent output database as its callers see it: a committed and a working map, as bags of
records. Two fields are bookkeeping: `pending` lists the changes since the last `rollback` or
`blockFinished`, and `settled` those calls with what was pending. -/

namespace FloweeHub

open Lib KeyedBag List
open scoped List

/-- A leaf of the database: the outpoint, and where the transaction that made it is stored. -/
structure UnspentOutput where
  prevTxId : Uint256
  outIndex : ℤ
  blockHeight : ℤ
  offsetInBlock : ℤ
deriving DecidableEq, Repr

namespace UnspentOutput

def isCoinbase (o : UnspentOutput) : Bool := 81 ≤ o.offsetInBlock ∧ o.offsetInBlock < 90

def outpoint (o : UnspentOutput) : TxInput := ⟨o.prevTxId, o.outIndex⟩

end UnspentOutput

/-- The answer of `remove`; both fields are `-1` when nothing was found. -/
structure SpentOutput where
  blockHeight : ℤ
  offsetInBlock : ℤ
deriving DecidableEq, Repr

def SpentOutput.isValid (s : SpentOutput) : Bool := 0 < s.blockHeight

/-- `BlockData::TxOutputs`: the outputs of one transaction, as a range of indexes. -/
structure TxOutputs where
  txid : Uint256
  firstOutput : ℤ
  lastOutput : ℤ
  offsetInBlock : ℤ
deriving DecidableEq, Repr

namespace TxOutputs

/-- The constructor never makes an empty range. -/
def mk' (txid : Uint256) (offsetInBlock firstOutput lastOutput : ℤ) : TxOutputs :=
  ⟨txid, firstOutput, if lastOutput < firstOutput then firstOutput else lastOutput, offsetInBlock⟩

def records (blockHeight : ℤ) (t : TxOutputs) : List UnspentOutput :=
  (range (t.lastOutput - t.firstOutput + 1).toNat).map fun i : ℕ =>
    ⟨t.txid, t.firstOutput + i, blockHeight, t.offsetInBlock⟩

end TxOutputs

/-- What a block adds. -/
structure BlockData where
  blockHeight : ℤ
  outputs : List TxOutputs
deriving DecidableEq, Repr

def BlockData.records (data : BlockData) : List UnspentOutput :=
  data.outputs.flatMap (TxOutputs.records data.blockHeight)

/-- A change of the working map. -/
inductive Change
  | insert (o : UnspentOutput)
  | remove (o : UnspentOutput)
deriving DecidableEq, Repr

/-- A change made on behalf of the block with id `owner`. -/
structure PendingChange where
  owner : Uint256
  change : Change
deriving DecidableEq, Repr

/-- The two calls that settle changes. -/
inductive SettleKind
  | rollback
  | blockFinished (blockheight : ℤ) (blockId : Uint256)
deriving DecidableEq, Repr

/-- A call that settles what is pending, made on behalf of `owner`. -/
structure SettleCall where
  kind : SettleKind
  owner : Uint256
  pending : List PendingChange
deriving DecidableEq, Repr

/-- The two maps and the state of the last block. -/
structure UnspentOutputDatabase where
  committed : List UnspentOutput
  working : List UnspentOutput
  blockheight : ℤ
  blockId : Uint256
  rejectedBlocks : List Uint256
  pending : List PendingChange
  settled : List SettleCall
deriving DecidableEq, Repr

namespace UnspentOutputDatabase

variable (db : UnspentOutputDatabase) (owner : Uint256)

variable (os : List UnspentOutput)

/-- Records are stored without a look at what is already there. -/
def addRecords : UnspentOutputDatabase :=
  { db with
    working := db.working ++ os
    pending := db.pending ++ os.map fun o => ⟨owner, .insert o⟩ }

def insert (o : UnspentOutput) : UnspentOutputDatabase := db.addRecords owner [o]

def insertAll (data : BlockData) : UnspentOutputDatabase := db.addRecords owner data.records

def find (i : TxInput) : Option UnspentOutput := lookup UnspentOutput.outpoint i db.working

def remove (i : TxInput) : SpentOutput × UnspentOutputDatabase :=
  match db.find i with
  | none => (⟨-1, -1⟩, db)
  | some o =>
    (⟨o.blockHeight, o.offsetInBlock⟩,
      { db with
        working := discard UnspentOutput.outpoint i db.working
        pending := db.pending ++ [⟨owner, .remove o⟩] })

def rollback : UnspentOutputDatabase :=
  { db with
    working := db.committed
    pending := []
    settled := db.settled ++ [⟨.rollback, owner, db.pending⟩] }

def blockFinished (blockheight : ℤ) (blockId : Uint256) : UnspentOutputDatabase :=
  { db with
    committed := db.working
    blockheight := blockheight
    blockId := blockId
    pending := []
    settled := db.settled ++ [⟨.blockFinished blockheight blockId, owner, db.pending⟩] }

def setFailedBlockId (blockId : Uint256) : UnspentOutputDatabase :=
  { db with rejectedBlocks := db.rejectedBlocks.insert blockId }

def blockIdHasFailed (blockId : Uint256) : Bool := db.rejectedBlocks.contains blockId

/-- Nothing is pending. -/
def Idle : Prop := db.working = db.committed ∧ db.pending = []

instance : Decidable db.Idle := inferInstanceAs (Decidable (_ ∧ _))

theorem idle_rollback : (db.rollback owner).Idle := ⟨rfl, rfl⟩

theorem idle_blockFinished (height : ℤ) (id : Uint256) : (db.blockFinished owner height id).Idle :=
  ⟨rfl, rfl⟩

/-! ### The pending changes are the difference of the two maps -/

def inserted (cs : List PendingChange) : List UnspentOutput :=
  cs.filterMap fun c => match c.change with | .insert o => some o | .remove _ => none

def removed (cs : List PendingChange) : List UnspentOutput :=
  cs.filterMap fun c => match c.change with | .insert _ => none | .remove o => some o

/-- What is pending accounts for everything by which the maps differ. -/
def Accounted : Prop := db.working ++ removed db.pending ~ db.committed ++ inserted db.pending

@[simp] theorem inserted_append (cs ds : List PendingChange) :
    inserted (cs ++ ds) = inserted cs ++ inserted ds := filterMap_append

@[simp] theorem removed_append (cs ds : List PendingChange) :
    removed (cs ++ ds) = removed cs ++ removed ds := filterMap_append

@[simp] theorem inserted_map : inserted (os.map fun o => ⟨owner, .insert o⟩) = os := by
  simp [inserted, filterMap_map]

@[simp] theorem removed_map : removed (os.map fun o => ⟨owner, .insert o⟩) = [] := by
  simp [removed, filterMap_map]

@[simp] theorem removed_map_remove : removed (os.map fun o => ⟨owner, .remove o⟩) = os := by
  simp [removed, filterMap_map]

variable {db owner} {i : TxInput}

theorem Idle.accounted (h : db.Idle) : db.Accounted := by
  unfold Accounted
  rw [h.1, h.2]
  rfl

theorem Accounted.addRecords (h : db.Accounted) (os : List UnspentOutput) :
    (db.addRecords owner os).Accounted := by
  simp only [Accounted, UnspentOutputDatabase.addRecords, inserted_append, removed_append, inserted_map,
    removed_map, append_nil]
  calc db.working ++ os ++ removed db.pending
      ~ db.working ++ removed db.pending ++ os := by
        simpa only [append_assoc] using (@perm_append_comm _ os (removed db.pending)).append_left
          db.working
    _ ~ db.committed ++ inserted db.pending ++ os := h.append_right os
    _ = db.committed ++ (inserted db.pending ++ os) := append_assoc ..

theorem remove_of_find {o : UnspentOutput} (h : db.find i = some o) :
    db.remove owner i = (⟨o.blockHeight, o.offsetInBlock⟩,
      { db with
        working := discard UnspentOutput.outpoint i db.working
        pending := db.pending ++ [⟨owner, .remove o⟩] }) := by
  simp [remove, h]

theorem remove_of_find_none (h : db.find i = none) : db.remove owner i = (⟨-1, -1⟩, db) := by
  simp [remove, h]

theorem Accounted.remove (h : db.Accounted) (i : TxInput) : (db.remove owner i).2.Accounted := by
  cases hf : db.find i with
  | none => rwa [remove_of_find_none hf]
  | some o =>
    rw [remove_of_find hf]
    have hw := perm_cons_discard hf
    simp only [Accounted, inserted_append, removed_append] at h ⊢
    calc discard UnspentOutput.outpoint i db.working ++ (removed db.pending ++ [o])
        ~ o :: discard UnspentOutput.outpoint i db.working ++ removed db.pending := by
          rw [← append_assoc]
          exact perm_append_singleton o _
      _ ~ db.working ++ removed db.pending := hw.symm.append_right _
      _ ~ db.committed ++ (inserted db.pending ++ []) := by simpa using h

/-- Take out the record under each outpoint in turn. -/
def removeAll (owner : Uint256) (is : List TxInput) (db : UnspentOutputDatabase) :
    UnspentOutputDatabase :=
  is.foldl (fun db i => (db.remove owner i).2) db

@[simp] theorem removeAll_nil : db.removeAll owner [] = db := rfl

@[simp] theorem removeAll_cons (i : TxInput) (is : List TxInput) :
    db.removeAll owner (i :: is) = (db.remove owner i).2.removeAll owner is := rfl

theorem removeAll_append (is js : List TxInput) :
    db.removeAll owner (is ++ js) = (db.removeAll owner is).removeAll owner js := foldl_append

theorem working_remove (i : TxInput) :
    (db.remove owner i).2.working = discard UnspentOutput.outpoint i db.working := by
  cases hf : db.find i with
  | none => rw [remove_of_find_none hf, discard_of_lookup_none hf]
  | some o => rw [remove_of_find hf]

theorem working_removeAll (is : List TxInput) :
    (db.removeAll owner is).working = (takeAll UnspentOutput.outpoint is db.working).2 := by
  induction is generalizing db with
  | nil => rfl
  | cons i is ih => rw [removeAll_cons, ih, working_remove]; rfl

/-- Removing changes nothing but the working map and what is pending. -/
theorem remove_frame (i : TxInput) :
    (db.remove owner i).2 = { db with
      working := (db.remove owner i).2.working, pending := (db.remove owner i).2.pending } := by
  cases hf : db.find i with
  | none => rw [remove_of_find_none hf]
  | some o => rw [remove_of_find hf]

theorem blockId_removeAll (is : List TxInput) : (db.removeAll owner is).blockId = db.blockId := by
  induction is generalizing db with
  | nil => rfl
  | cons i is ih => rw [removeAll_cons, ih, remove_frame]

end UnspentOutputDatabase

end FloweeHub
