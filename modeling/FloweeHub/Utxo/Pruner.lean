import FloweeHub.Lib.Guards
import FloweeHub.Utxo.Bucket

/-! The pruner copies the leafs of a bucket to a new file, each with the short form of its id, and
writes the bucket behind them. The bucket leads to the copies. Which files are pruned and how they
replace the old ones is left out. -/

namespace FloweeHub.UODB.Pruner

open Lib Streaming Bucket List

/-- A leaf that is to be copied; `diskPosition` is a `uint32_t`. -/
structure LeafRef where
  diskPosition : ℕ
  txid : Uint256
  output : ℤ
deriving DecidableEq, Repr

def copyLeaf (leaf : UnspentOutput) (txid : Uint256) : Bytes :=
  UnspentOutput.write (txid.toBytes.drop 8) leaf.outIndex leaf.blockHeight leaf.offsetInBlock

/-- `outBuf` is the new file up to now; the test before the id is written always holds. -/
def copyLeafs (inputBuf outBuf : Bytes) : List LeafRef → Except String (Bytes × List LeafRef)
  | [] => .ok (outBuf, [])
  | ref :: refs => do
    let leaf ← UnspentOutput.ofBuffer (GetCheapHash ref.txid) (inputBuf.drop ref.diskPosition)
    let txid ← leaf.prevTxId
    let (newBuf, leafRefs) ← copyLeafs inputBuf (outBuf ++ copyLeaf leaf txid) refs
    return (newBuf, { ref with diskPosition := outBuf.length } :: leafRefs)

/-- The loop of `writeBucketData`, with its two asserts. -/
def bucketFields (posOfBucket : ℕ) : ℕ → List LeafRef → Option (List Field)
  | _, [] => some []
  | prevCH, ref :: refs =>
    let cheapHash := GetCheapHash ref.txid
    let offset := toInt32 (posOfBucket - ref.diskPosition)
    if ref.diskPosition < posOfBucket ∧ 0 < offset then
      (bucketFields posOfBucket cheapHash refs).map fun fields =>
        cheapHashField prevCH cheapHash ++ .int LeafPosRelToBucket offset :: fields
    else none

/-- The bytes that are written for a bucket and their position; `none` is a failed assert. -/
def writeBucketData (outBuf : Bytes) (leafRefs : List LeafRef) : Option (Bytes × ℕ) :=
  (bucketFields outBuf.length 0 leafRefs).map fun fields =>
    (fields.flatMap Field.write ++ (Field.bool Separator true).write, outBuf.length)

def LeafRef.toOutputRef (ref : LeafRef) : OutputRef := ⟨GetCheapHash ref.txid, ref.diskPosition, none⟩

variable {posOfBucket : ℕ} {leafRefs : List LeafRef} {inputBuf outBuf : Bytes}

/-- Behind any references, the fields of the loop add the references to the copied leafs. -/
theorem exists_bucketFields (hpos : posOfBucket < 2 ^ 31)
    (hrefs : ∀ ref ∈ leafRefs, ref.diskPosition < posOfBucket) (ch : ℕ) (acc : List OutputRef) :
    ∃ fields ch', bucketFields posOfBucket ch leafRefs = some fields ∧ (∀ f ∈ fields, f.Short) ∧
      MessageParser.Follows (fillBody posOfBucket) fields ⟨ch, acc⟩ ⟨ch',
        acc ++ leafRefs.map LeafRef.toOutputRef⟩ := by
  induction leafRefs generalizing ch acc with
  | nil => exact ⟨[], ch, rfl, by simp, by rw [map_nil, append_nil]; rfl⟩
  | cons ref refs ih =>
    obtain ⟨href, hrefs⟩ := forall_mem_cons.mp hrefs
    obtain ⟨fields, ch', hfs, hsh, hfol⟩ := ih hrefs (GetCheapHash ref.txid) (acc ++ [ref.toOutputRef])
    have hoff : toInt32 (posOfBucket - ref.diskPosition) = posOfBucket - ref.diskPosition :=
      toInt32_of_fits (by omega) (by omega)
    have hplaces : Bucket.Places posOfBucket acc ref.diskPosition
      (.int LeafPosRelToBucket (posOfBucket - ref.diskPosition)) := .relToBucket href.le
    refine ⟨cheapHashField ch (GetCheapHash ref.txid) ++
      .int LeafPosRelToBucket (posOfBucket - ref.diskPosition) :: fields, ch', ?_, ?_, ?_⟩
    · simp only [bucketFields, hoff, hfs]
      exact if_pos ⟨href, by omega⟩
    · exact forall_mem_append.mpr ⟨short_cheapHashField (GetCheapHash_lt _),
        forall_mem_cons.mpr ⟨hplaces.short (href.trans hpos) hpos, hsh⟩⟩
    · have hone := follows_ref ch (GetCheapHash ref.txid) hplaces (href.trans hpos)
      rw [append_cons, map_cons]
      rw [append_assoc] at hfol
      exact hone.append hfol

theorem fillFromDisk_writeBucketData (hpos : outBuf.length < 2 ^ 31)
    (hrefs : ∀ ref ∈ leafRefs, ref.diskPosition < outBuf.length) :
    ∃ bytes, writeBucketData outBuf leafRefs = some (bytes, outBuf.length) ∧
      ∀ rest, fillFromDisk (bytes ++ rest) outBuf.length = .ok (leafRefs.map LeafRef.toOutputRef) := by
  obtain ⟨fields, ch, hfs, hsh, hfol⟩ := exists_bucketFields hpos hrefs 0 []
  refine ⟨_, by rw [writeBucketData, hfs, Option.map_some], fun rest => ?_⟩
  have hlv : ∀ q, (Field.bool Separator true).ReadAs q →
      fillBody outBuf.length q ⟨ch, [] ++ leafRefs.map LeafRef.toOutputRef⟩ =
        .inr (.ok (leafRefs.map LeafRef.toOutputRef)) := fun q hq => by simp [fillBody, hq.1]
  obtain ⟨q, -, hrun⟩ := MessageParser.forFields_last rest hsh Leaf.short_separator hfol hlv
  rw [fillFromDisk, append_assoc, hrun]

theorem length_write_pos (txid : Bytes) (outIndex blockHeight offsetInBlock : ℤ) :
    0 < (UnspentOutput.write txid outIndex blockHeight offsetInBlock).length := by
  have := (Field.bool Separator true).length_write_pos
  rw [UnspentOutput.write, length_append]
  omega

theorem copyLeafs_diskPosition_lt {newBuf : Bytes} {newRefs : List LeafRef}
    (h : copyLeafs inputBuf outBuf leafRefs = .ok (newBuf, newRefs)) :
    outBuf.length ≤ newBuf.length ∧ ∀ ref ∈ newRefs, ref.diskPosition < newBuf.length := by
  induction leafRefs generalizing outBuf newBuf newRefs with
  | nil =>
    cases h
    exact ⟨le_rfl, by simp⟩
  | cons ref refs ih =>
    obtain ⟨leaf, -, h⟩ := Guards.bind_eq_ok_iff.mp h
    obtain ⟨txid, -, h⟩ := Guards.bind_eq_ok_iff.mp h
    obtain ⟨⟨buf, copied⟩, hcopied, h⟩ := Guards.bind_eq_ok_iff.mp h
    obtain ⟨rfl, rfl⟩ := Prod.mk.inj (Except.ok.inj h)
    obtain ⟨hle, hlt⟩ := ih hcopied
    have hpos := length_write_pos (txid.toBytes.drop 8) leaf.outIndex leaf.blockHeight leaf.offsetInBlock
    rw [length_append, copyLeaf] at hle
    exact ⟨by omega, forall_mem_cons.mpr ⟨show outBuf.length < buf.length by omega, hlt⟩⟩

/-- `saveToDisk` looks at the hash and the position of a reference only. -/
theorem saveFields_map (off : ℤ) (ch : ℕ) (prev : ℤ) (refs : List OutputRef) :
    saveFields off ch prev (refs.map fun r => ⟨r.cheapHash, r.leafPos, none⟩) =
      saveFields off ch prev refs := by
  induction refs generalizing ch prev with
  | nil => rfl
  | cons r refs ih => rw [map_cons, saveFields, saveFields, ih]

/-- A bucket is read back as it was written, by a save or by the pruner, whatever follows it. -/
theorem fillFromDisk_written :
    (∀ (off : ℕ) (refs : List OutputRef) (rest : Bytes), off < 2 ^ 31 →
      (∀ r ∈ refs, r.cheapHash < 2 ^ 64 ∧ r.leafPos < off) →
      fillFromDisk (saveToDisk refs off ++ rest) off = .ok (refs.map fun r =>
        ⟨r.cheapHash, r.leafPos, none⟩)) ∧
    (∀ (outBuf : Bytes) (leafRefs : List LeafRef), outBuf.length < 2 ^ 31 →
      (∀ ref ∈ leafRefs, ref.diskPosition < outBuf.length) →
      ∃ bytes, writeBucketData outBuf leafRefs = some (bytes, outBuf.length) ∧
        ∀ rest, fillFromDisk (bytes ++ rest) outBuf.length = .ok (leafRefs.map LeafRef.toOutputRef)) ∧
    ∀ (inputBuf outBuf newBuf : Bytes) (leafRefs newRefs : List LeafRef),
      copyLeafs inputBuf outBuf leafRefs = .ok (newBuf, newRefs) →
      ∀ ref ∈ newRefs, ref.diskPosition < newBuf.length := by
  refine ⟨fun off refs rest hoff hrefs => ?_, fun outBuf leafRefs => fillFromDisk_writeBucketData,
    fun _ _ _ _ _ h => (copyLeafs_diskPosition_lt h).2⟩
  have hsavable : ∀ r ∈ refs.map fun r => (⟨r.cheapHash, r.leafPos, none⟩ : OutputRef),
      Bucket.Savable off r := by
    intro r hr
    obtain ⟨ref, href, rfl⟩ := mem_map.mp hr
    obtain ⟨hchp, hpos⟩ := hrefs ref href
    exact ⟨hchp, hpos.le, rfl⟩
  have hread := fillFromDisk_saveToDisk hoff hsavable rest
  rwa [saveToDisk, saveFields_map] at hread

/-- Three leafs, two of them at one position, and the bucket of two copied ones. -/
theorem fillFromDisk_written_three :
    fillFromDisk (saveToDisk [⟨7, 300, none⟩, ⟨7, 300, none⟩, ⟨0, 12, none⟩] 900 ++ [1, 2]) 900 =
      .ok [⟨7, 300, none⟩, ⟨7, 300, none⟩, ⟨0, 12, none⟩] ∧
    ∃ bytes, writeBucketData [0, 0, 0] [⟨0, 5, 1⟩, ⟨2, 5, 0⟩] = some (bytes, 3) ∧
      ∀ rest, fillFromDisk (bytes ++ rest) 3 = .ok [⟨5, 0, none⟩, ⟨5, 2, none⟩] :=
  ⟨fillFromDisk_written.1 900 [⟨7, 300, none⟩, ⟨7, 300, none⟩, ⟨0, 12, none⟩] [1, 2] (by decide)
    (by decide), fillFromDisk_written.2.1 [0, 0, 0] [⟨0, 5, 1⟩, ⟨2, 5, 0⟩] (by decide) (by decide)⟩

end FloweeHub.UODB.Pruner
