import FloweeHub.Streaming.RoundTrip

/-! The leafs of the unspent output database. The database writes the whole transaction id, the
pruner leaves out the eight bytes that the bucket holds anyway. -/

namespace FloweeHub.UODB

open Lib Streaming LittleEndian MessageParser Uint256 List Field

abbrev Separator : ℕ := 0
abbrev TXID : ℕ := 1
abbrev OutIndex : ℕ := 2
abbrev BlockHeight : ℕ := 3
abbrev OffsetInBlock : ℕ := 4
abbrev LeafPosition : ℕ := 5
abbrev LeafPosRelToBucket : ℕ := 6
abbrev CheapHash : ℕ := 7
abbrev LastBlockId : ℕ := 8
abbrev FirstBlockHeight : ℕ := 9
abbrev LastBlockHeight : ℕ := 10
abbrev JumpTableHash : ℕ := 11
abbrev PositionInFile : ℕ := 12
abbrev LeafPosOn512MB : ℕ := 13
abbrev LeafPosFromPrevLeaf : ℕ := 14
abbrev LeafPosRepeat : ℕ := 15
abbrev ChangesSincePrune : ℕ := 16
abbrev IsTip : ℕ := 17
abbrev InitialBucketSegmentSize : ℕ := 18
abbrev InvalidBlockHash : ℕ := 19

def GetCheapHash (txid : Uint256) : ℕ := decode (txid.toBytes.take 8)

abbrev ShortHash := Fin 0x100000

theorem GetCheapHash_lt (txid : Uint256) : GetCheapHash txid < 2 ^ 64 := by
  have h := decode_lt (txid.toBytes.take 8)
  rwa [length_take, length_toBytes] at h

/-- The cheap hash and the bytes behind it are the whole id. -/
theorem ofBytes_cheapHash_append (txid : Uint256) :
    ofBytes (encode 8 (GetCheapHash txid) ++ txid.toBytes.drop 8) = txid := by
  have hlen : (txid.toBytes.take 8).length = 8 := by rw [length_take, length_toBytes]; rfl
  have hfr := encode_decode (txid.toBytes.take 8)
  rw [hlen] at hfr
  rw [GetCheapHash, hfr, take_append_drop, ofBytes_toBytes]

/-- `UnspentOutput`; `privData` is the hint for `remove`. -/
structure UnspentOutput where
  data : Bytes := []
  outIndex : ℤ := 0
  offsetInBlock : ℤ := 0
  blockHeight : ℤ := 0
  cheapHash : ℕ := 0
  privData : ℕ := 0
deriving DecidableEq, Repr

namespace UnspentOutput

def fields (txid : Bytes) (outIndex blockHeight offsetInBlock : ℤ) : List Field :=
  [.int BlockHeight blockHeight, .int OffsetInBlock offsetInBlock, .bytes TXID txid] ++
    if outIndex ≠ 0 then [.int OutIndex outIndex] else []

def write (txid : Bytes) (outIndex blockHeight offsetInBlock : ℤ) : Bytes :=
  (fields txid outIndex blockHeight offsetInBlock).flatMap Field.write ++
    (Field.bool Separator true).write

def create (txid : Uint256) (outIndex blockHeight offsetInBlock : ℤ) : UnspentOutput where
  data := write txid.toBytes outIndex blockHeight offsetInBlock
  outIndex := outIndex
  offsetInBlock := offsetInBlock
  blockHeight := blockHeight

/-- The variables of the loop of the constructor that reads a leaf. -/
structure Reading where
  blockHeight : ℤ := -1
  offsetInBlock : ℤ := -1
  outIndex : ℤ := 0
  foundUtxo : Bool := false
  hitSeparator : Bool := false

def readField (q : MessageParser) (r : Reading) : Reading :=
  if q.tag = BlockHeight then { r with blockHeight := q.intData }
  else if q.tag = OffsetInBlock then { r with offsetInBlock := q.intData }
  else if !r.hitSeparator ∧ q.tag = OutIndex then { r with outIndex := q.intData }
  else if q.tag = TXID then { r with foundUtxo := true }
  else if q.tag = Separator then { r with hitSeparator := true }
  else r

def readBody (q : MessageParser) (r : Reading) : Reading ⊕ Reading :=
  let r := readField q r
  if r.hitSeparator ∧ r.foundUtxo then .inr r else .inl r

def ofBuffer (cheapHash : ℕ) (buffer : Bytes) : Except String UnspentOutput :=
  let (parser, result) := forFields readBody buffer {}
  let r := result.elim id id
  if parser.next.1 = .error then .error "Unparsable UTXO-record"
  else if 0 < r.blockHeight ∧ 0 ≤ r.offsetInBlock then
    .ok { data := buffer, outIndex := r.outIndex, offsetInBlock := r.offsetInBlock, blockHeight := r.blockHeight,
          cheapHash := cheapHash }
  else .error "assert"

def prevTxIdBody (cheapHash : ℕ) (q : MessageParser) (_ : Unit) : Unit ⊕ Except String Uint256 :=
  if q.tag = TXID then
    if q.arrayLength = 32 then .inr (.ok q.uint256Data)
    else if q.arrayLength ≠ 24 then .inr (.error "TXID of wrong length")
    else .inr (.ok (ofBytes (encode 8 cheapHash ++ q.bytesData)))
  else .inl ()

def prevTxId (u : UnspentOutput) : Except String Uint256 :=
  match (forFields (prevTxIdBody u.cheapHash) u.data ()).2 with
  | .inl _ => .error "No txid in UnspentOutput buffer found"
  | .inr r => r

end UnspentOutput

/-- The variables of `matchesOutput`. -/
structure Matching where
  txidMatched : Bool := false
  indexMatched : Bool := false
  separatorHit : Bool := false
deriving DecidableEq

/-- One turn of the loop; a result is what `matchesOutput` returns. -/
def matchBody (txid : Uint256) (index : ℤ) (q : MessageParser) (m : Matching) : Matching ⊕ Bool :=
  let turn : Matching ⊕ Bool :=
    if !m.txidMatched ∧ q.tag = TXID then
      if q.arrayLength = 32 ∧ txid = q.uint256Data then .inl { m with txidMatched := true }
      else if q.arrayLength = 24 then
        .inl { m with txidMatched := decide (txid.toBytes.drop 8 = q.bytesDataBuffer) }
      else .inr false
    else if !m.indexMatched ∧ !m.separatorHit ∧ q.tag = OutIndex then
      if index = q.intData then .inl { m with indexMatched := true } else .inr false
    else if !m.indexMatched ∧ q.tag = Separator then
      .inl { m with indexMatched := decide (0 = index), separatorHit := true }
    else .inl m
  match turn with
  | .inr r => .inr r
  | .inl m => if m.txidMatched ∧ (m.separatorHit ∨ m.indexMatched) then .inr m.indexMatched else .inl m

/-! ### Reading a leaf back -/

/-- An output that the database may hold. -/
structure Leaf where
  txid : Uint256
  outIndex : ℤ
  blockHeight : ℤ
  offsetInBlock : ℤ
  outIndex_fits : 0 ≤ outIndex ∧ outIndex < 2 ^ 31
  blockHeight_fits : 0 < blockHeight ∧ blockHeight < 2 ^ 31
  offsetInBlock_fits : 80 < offsetInBlock ∧ offsetInBlock < 2 ^ 31
deriving DecidableEq

namespace Leaf

variable {l : Leaf} {id rest : Bytes} {u : UnspentOutput}

variable (l)

def cheapHash : ℕ := GetCheapHash l.txid

def record (id : Bytes) : Bytes := UnspentOutput.write id l.outIndex l.blockHeight l.offsetInBlock

def output : UnspentOutput := .create l.txid l.outIndex l.blockHeight l.offsetInBlock

theorem output_data : l.output.data = l.record l.txid.toBytes := rfl

def fields (l : Leaf) (id : Bytes) : List Field :=
  UnspentOutput.fields id l.outIndex l.blockHeight l.offsetInBlock

theorem record_append (id rest : Bytes) :
    l.record id ++ rest = (l.fields id).flatMap Field.write ++
      ((Field.bool Separator true).write ++ rest) :=
  append_assoc ..

variable {l}

theorem short_separator : (Field.bool Separator true).Short := .bool (by decide)

theorem short_fields (hid : id.length < 2 ^ 31) : ∀ f ∈ l.fields id, f.Short := by
  obtain ⟨hix, hht, hoff⟩ :=
    And.intro l.outIndex_fits (And.intro l.blockHeight_fits l.offsetInBlock_fits)
  have hfst : ∀ f ∈ [int BlockHeight l.blockHeight, .int OffsetInBlock l.offsetInBlock,
      .bytes TXID id], f.Short := by
    simp only [forall_mem_cons, not_mem_nil, false_implies, implies_true, and_true]
    exact ⟨.int (by decide) (by omega) (by omega), .int (by decide) (by omega) (by omega),
      .bytes (by decide) hid⟩
  refine forall_mem_append.mpr ⟨hfst, ?_⟩
  split_ifs
  · exact forall_mem_singleton.mpr (.int (by decide) (by omega) (by omega))
  · exact forall_mem_nil _

variable (l)

/-- The loop of the reading constructor over the fields of a leaf. -/
theorem follows_readBody (id : Bytes) :
    MessageParser.Follows UnspentOutput.readBody (l.fields id) {}
      { blockHeight := l.blockHeight, offsetInBlock := l.offsetInBlock, outIndex := l.outIndex,
        foundUtxo := true, hitSeparator := false } := by
  have hfst : MessageParser.Follows UnspentOutput.readBody
      [.int BlockHeight l.blockHeight, .int OffsetInBlock l.offsetInBlock, .bytes TXID id] {}
      ⟨l.blockHeight, l.offsetInBlock, 0, true, false⟩ := by
    refine ⟨⟨l.blockHeight, -1, 0, false, false⟩, fun q hq => ?_,
      ⟨l.blockHeight, l.offsetInBlock, 0, false, false⟩, fun q hq => ?_, _, fun q hq => ?_, rfl⟩
    · simp [UnspentOutput.readBody, UnspentOutput.readField, hq.1, hq.2]
    · simp [UnspentOutput.readBody, UnspentOutput.readField, hq.1, hq.2]
    · simp [UnspentOutput.readBody, UnspentOutput.readField, hq.1]
  apply hfst.append
  by_cases hzero : l.outIndex = 0
  · simp [hzero, MessageParser.Follows]
  · rw [if_pos hzero]
    refine ⟨_, fun q hq => ?_, rfl⟩
    simp [UnspentOutput.readBody, UnspentOutput.readField, hq.1, hq.2]

def place : List Field := [.int BlockHeight l.blockHeight, .int OffsetInBlock l.offsetInBlock]

def behindId (rest : Bytes) : Bytes :=
  (if l.outIndex ≠ 0 then [int OutIndex l.outIndex] else []).flatMap write ++
    ((bool Separator true).write ++ rest)

theorem record_append_place (id rest : Bytes) :
    l.record id ++ rest = l.place.flatMap write ++ ((bytes TXID id).write ++ l.behindId rest) := by
  rw [record_append, fields, UnspentOutput.fields, place, behindId]
  simp

theorem short_place : ∀ f ∈ l.place, f.Short := by
  intro f hf
  have hfs : f ∈ l.fields [] := by
    simp only [place, mem_cons, not_mem_nil, or_false] at hf
    simp only [fields, UnspentOutput.fields, mem_append, mem_cons]
    tauto
  exact short_fields (by decide) f hfs

variable {l} {txid : Uint256}

theorem follows_place {σ ρ : Type} {body : MessageParser → σ → σ ⊕ ρ} {s : σ} (l : Leaf)
    (h : ∀ q, q.tag = BlockHeight ∨ q.tag = OffsetInBlock → body q s = .inl s) :
    MessageParser.Follows body l.place s s :=
  ⟨s, fun q hq => h q (.inl hq.1), s, fun q hq => h q (.inr hq.1), rfl⟩

theorem forFields_id {σ ρ : Type} {body : MessageParser → σ → σ ⊕ ρ} {s : σ} {r : ρ} (l : Leaf)
    (rest : Bytes) (hid : id.length < 2 ^ 31)
    (h : ∀ q, q.tag = BlockHeight ∨ q.tag = OffsetInBlock → body q s = .inl s)
    (hlv : ∀ q, (bytes TXID id).ReadAs q → body q s = .inr r) :
    (forFields body (l.record id ++ rest) s).2 = .inr r := by
  obtain ⟨q, -, hrun⟩ := forFields_last (l.behindId rest) l.short_place (.bytes (by decide) hid)
    (l.follows_place h) hlv
  rw [record_append_place, hrun]

theorem uint256Data_of_readAs {q : MessageParser} (h : (bytes TXID txid.toBytes).ReadAs q) :
    q.arrayLength = 32 ∧ q.uint256Data = txid := by
  have hlen := length_toBytes txid
  obtain ⟨-, harr, -, hdata⟩ := h
  exact ⟨by rw [harr, hlen]; rfl, (hdata hlen).trans (ofBytes_toBytes txid)⟩

theorem prevTxId_of_body {r : Except String Uint256} (hid : id.length < 2 ^ 31)
    (hdata : u.data = l.record id ++ rest) (h : ∀ q, (bytes TXID id).ReadAs q →
      UnspentOutput.prevTxIdBody u.cheapHash q () = .inr r) : u.prevTxId = r := by
  have hpl : ∀ q : MessageParser, q.tag = BlockHeight ∨ q.tag = OffsetInBlock →
      UnspentOutput.prevTxIdBody u.cheapHash q () = .inl () := by
    intro q hq
    rcases hq with hq | hq <;> simp [UnspentOutput.prevTxIdBody, hq]
  rw [UnspentOutput.prevTxId, hdata, forFields_id l rest hid hpl h]

theorem prevTxId_record (hdata : u.data = l.record l.txid.toBytes ++ rest) :
    u.prevTxId = .ok l.txid := by
  have hlen := length_toBytes l.txid
  apply prevTxId_of_body (by omega) hdata
  intro q hq
  obtain ⟨harr, hval⟩ := uint256Data_of_readAs hq
  simp [UnspentOutput.prevTxIdBody, hq.1, harr, hval]

theorem prevTxId_shortRecord (hdata : u.data = l.record (l.txid.toBytes.drop 8) ++ rest)
    (hchp : u.cheapHash = l.cheapHash) : u.prevTxId = .ok l.txid := by
  have hlen : (l.txid.toBytes.drop 8).length = 24 := by rw [length_drop, length_toBytes]
  apply prevTxId_of_body (by omega) hdata
  rintro q ⟨htag, harr, hbs, -⟩
  rw [hlen] at harr
  simp [UnspentOutput.prevTxIdBody, htag, harr, hbs, hchp, cheapHash, ofBytes_cheapHash_append]

theorem matchBody_place (txid : Uint256) (ix : ℤ) (q : MessageParser)
    (h : q.tag = BlockHeight ∨ q.tag = OffsetInBlock) :
    matchBody txid ix q {} = .inl {} := by
  rcases h with h | h <;> simp [matchBody, h]

def upToId (l : Leaf) (id : Bytes) : List Field := l.place ++ [.bytes TXID id]

theorem short_upToId (hid : id.length < 2 ^ 31) : ∀ f ∈ l.upToId id, f.Short :=
  forall_mem_append.mpr ⟨l.short_place, forall_mem_singleton.mpr (.bytes (by decide) hid)⟩

theorem record_append_upToId (l : Leaf) (id rest : Bytes) :
    l.record id ++ rest = (l.upToId id).flatMap write ++ l.behindId rest := by
  rw [record_append_place, upToId, flatMap_append, append_assoc]
  simp

/-- A record whose id matches is left inside the record, with the comparison of the index. -/
theorem forFields_match (hid : id.length < 2 ^ 31) (ix : ℤ)
    (hmt : ∀ q, (bytes TXID id).ReadAs q → matchBody txid ix q {} = .inl { txidMatched := true }) :
    (forFields (matchBody txid ix) (l.record id ++ rest) {}).2 = .inr (decide (ix = l.outIndex)) := by
  have hfol : MessageParser.Follows (matchBody txid ix) (l.upToId id) {} { txidMatched := true } :=
    (l.follows_place (matchBody_place txid ix)).append ⟨_, hmt, rfl⟩
  rw [record_append_upToId, behindId]
  by_cases hzero : l.outIndex = 0
  · obtain ⟨q, -, hrun⟩ := forFields_last (r := decide (ix = l.outIndex)) rest (short_upToId hid)
      short_separator hfol fun q hq => by simp [matchBody, hq.1, hzero, eq_comm]
    simp [hzero, hrun]
  · obtain ⟨hlo, hhi⟩ := l.outIndex_fits
    obtain ⟨q, -, hrun⟩ := forFields_last (r := decide (ix = l.outIndex))
      ((bool Separator true).write ++ rest) (short_upToId hid)
      (.int (by decide) (by omega) hhi : (int OutIndex l.outIndex).Short) hfol fun q hq => by
        by_cases hix : ix = l.outIndex <;> simp [matchBody, hq.1, hq.2, hix]
    simp [hzero, hrun]

/-- A whole record: the loop is left at the id or behind it, inside the record. -/
theorem forFields_match_record (l : Leaf) (rest : Bytes) (txid : Uint256) (ix : ℤ) :
    (forFields (matchBody txid ix) (l.record l.txid.toBytes ++ rest) {}).2 =
      .inr (decide (txid = l.txid ∧ ix = l.outIndex)) := by
  have hlen := length_toBytes l.txid
  by_cases htxid : txid = l.txid
  · rw [forFields_match (by omega) ix fun q hq => ?_]
    · simp [htxid]
    · obtain ⟨harr, hval⟩ := uint256Data_of_readAs hq
      simp [matchBody, hq.1, harr, hval, htxid]
  · rw [forFields_id l rest (r := false) (by omega) (matchBody_place txid ix) fun q hq => ?_]
    · simp [htxid]
    · obtain ⟨harr, hval⟩ := uint256Data_of_readAs hq
      simp [matchBody, hq.1, harr, hval, htxid]

end Leaf

end FloweeHub.UODB
