import FloweeHub.Utxo.Leaf

/-! Buckets: the references to the leafs that share a short hash, saved with a position for each
leaf in the shortest of four ways. What is read back is what was saved. -/

namespace FloweeHub.UODB

open Streaming List

/-- Positions from here on are those of things in memory. -/
abbrev MEMBIT : ℕ := 2 ^ 31

/-- `leafPos` is a place in the file or, with `MEMBIT` set, the number of a leaf in memory. -/
structure OutputRef where
  cheapHash : ℕ
  leafPos : ℕ
  unspentOutput : Option UnspentOutput := none
deriving DecidableEq, Repr

/-- References that share a short hash. -/
structure Bucket where
  unspentOutputs : List OutputRef := []
  saveAttempt : ℤ := 0
deriving DecidableEq, Repr

/-- The conversion of an `int` to a `uint32_t`. -/
def toUInt32 (v : ℤ) : ℕ := (v % 2 ^ 32).toNat

variable {v : ℤ}

theorem toUInt32_of_fits {n : ℕ} (h : v = n) (hn : n < 2 ^ 32) : toUInt32 v = n := by
  rw [toUInt32]
  omega

namespace Bucket

/-- The variables of `fillFromDisk`. -/
structure Filling where
  cheaphash : ℕ := 0
  unspentOutputs : List OutputRef := []

def Filling.push (s : Filling) (leafPos : ℤ) : Filling :=
  { s with unspentOutputs := s.unspentOutputs ++ [⟨s.cheaphash, toUInt32 leafPos, none⟩] }

/-- One turn of the loop in `fillFromDisk`. -/
def fillBody (bucketOffsetInFile : ℤ) (q : MessageParser) (s : Filling) :
    Filling ⊕ Except String (List OutputRef) :=
  if q.tag = CheapHash then .inl { s with cheaphash := q.longData }
  else if q.tag = LeafPosRelToBucket then
    if bucketOffsetInFile < q.intData then
      .inr (.error "Database corruption, offset to bucket messed up")
    else .inl (s.push (bucketOffsetInFile - q.intData))
  else if q.tag = LeafPosition then .inl (s.push q.intData)
  else if q.tag = LeafPosOn512MB then .inl (s.push (512 * 1024 * 1024 + q.intData))
  else if q.tag = LeafPosFromPrevLeaf then
    match s.unspentOutputs.getLast? with
    | none => .inr (.error "Bucket referred to prev leaf while its the first")
    | some back =>
      if toInt32 back.leafPos - q.intData < 0 then
        .inr (.error "Invalid leaf pos due to LeafPosFroMPrevLeaf")
      else .inl (s.push (toInt32 back.leafPos - q.intData))
  else if q.tag = LeafPosRepeat then
    match s.unspentOutputs.getLast? with
    | none => .inr (.error "Bucket referred to prev leaf while its the first")
    | some back => .inl (s.push (toInt32 back.leafPos))
  else if q.tag = Separator then .inr (.ok s.unspentOutputs)
  else .inl s

/-- The references of the bucket at the start of a buffer, which is at `bucketOffsetInFile`. -/
def fillFromDisk (buffer : Bytes) (bucketOffsetInFile : ℤ) : Except String (List OutputRef) :=
  match (MessageParser.forFields (fillBody bucketOffsetInFile) buffer {}).2 with
  | .inl _ => .error "Failed to parse bucket"
  | .inr r => r

def serialisedIntSize (v : ℤ) : ℕ := (serialize v.natAbs).length

/-- The tag and the number for a leaf: the ones that take the fewest bytes. -/
def tagToUse (offset prevPos leafPos : ℤ) : ℕ × ℤ :=
  let m512 := 512 * 1024 * 1024
  let byteCount := serialisedIntSize leafPos
  let m512TagSize := if 256 * 1024 * 1024 ≤ leafPos then serialisedIntSize (leafPos - m512) else 20
  let (tag, pos, byteCount) :=
    if m512TagSize < byteCount then (LeafPosOn512MB, leafPos - m512, m512TagSize)
    else (LeafPosition, leafPos, byteCount)
  let offsetFromBucketSize := serialisedIntSize (offset - leafPos)
  let (tag, pos, byteCount) :=
    if offsetFromBucketSize < byteCount then (LeafPosRelToBucket, offset - leafPos, offsetFromBucketSize)
    else (tag, pos, byteCount)
  if 0 ≤ prevPos ∧ serialisedIntSize (prevPos - leafPos) < byteCount then
    (LeafPosFromPrevLeaf, prevPos - leafPos)
  else (tag, pos)

/-- The field with the cheap hash, if it is not the one before. -/
def cheapHashField (prevCH cheapHash : ℕ) : List Field :=
  if prevCH ≠ cheapHash then [.long CheapHash cheapHash] else []

def positionField (offset prevPos leafPos : ℤ) : Field :=
  if prevPos = leafPos then .bool LeafPosRepeat false
  else .int (tagToUse offset prevPos leafPos).1 (tagToUse offset prevPos leafPos).2

def saveFields (offset : ℤ) : ℕ → ℤ → List OutputRef → List Field
  | _, _, [] => []
  | prevCH, prevPos, item :: items =>
    cheapHashField prevCH item.cheapHash ++ positionField offset prevPos (toInt32 item.leafPos) ::
      saveFields offset item.cheapHash (toInt32 item.leafPos) items

def saveToDisk (unspentOutputs : List OutputRef) (offset : ℤ) : Bytes :=
  (saveFields offset 0 (-1) unspentOutputs).flatMap Field.write ++ (Field.bool Separator true).write

/-! ### Reading a bucket back -/

variable {off pos : ℕ} {acc refs : List OutputRef} {f : Field} {r : OutputRef}

/-- The fields that stand for a position, behind the references `acc` in a bucket at `offset`. -/
inductive Places (offset : ℕ) (acc : List OutputRef) (pos : ℕ) : Field → Prop
  | position : Places offset acc pos (.int LeafPosition pos)
  | on512MB : Places offset acc pos (.int LeafPosOn512MB (pos - 512 * 1024 * 1024))
  | relToBucket : pos ≤ offset → Places offset acc pos (.int LeafPosRelToBucket (offset - pos))
  | fromPrevLeaf {back : OutputRef} : acc.getLast? = some back → back.leafPos < 2 ^ 31 →
      Places offset acc pos (.int LeafPosFromPrevLeaf (back.leafPos - pos))
  | same {back : OutputRef} : acc.getLast? = some back → back.leafPos = pos →
      Places offset acc pos (.bool LeafPosRepeat false)

theorem Places.short (h : Places off acc pos f) (hpos : pos < 2 ^ 31) (hoff : off < 2 ^ 31) :
    f.Short := by
  cases h with
  | position => exact .int (by decide) (by omega) (by omega)
  | on512MB => exact .int (by decide) (by omega) (by omega)
  | relToBucket => exact .int (by decide) (by omega) (by omega)
  | fromPrevLeaf => exact .int (by decide) (by omega) (by omega)
  | same => exact .bool (by decide)

theorem Filling.push_eq {ch : ℕ} (hv : v = pos) (hpos : pos < 2 ^ 31) :
    Filling.push ⟨ch, acc⟩ v = ⟨ch, acc ++ [⟨ch, pos, none⟩]⟩ := by
  rw [Filling.push, toUInt32_of_fits hv (by omega)]

theorem Places.fillBody (h : Places off acc pos f) (hpos : pos < 2 ^ 31) (ch : ℕ)
    {q : MessageParser} (hq : f.ReadAs q) :
    Bucket.fillBody off q ⟨ch, acc⟩ = .inl ⟨ch, acc ++ [⟨ch, pos, none⟩]⟩ := by
  cases h with
  | position => simp [Bucket.fillBody, hq.1, hq.2, Filling.push_eq rfl hpos]
  | on512MB => simp [Bucket.fillBody, hq.1, hq.2, Filling.push_eq rfl hpos]
  | relToBucket hle =>
    simp only [Bucket.fillBody, hq.1, hq.2]
    rw [if_neg (by decide), if_pos trivial, if_neg (by omega), Filling.push_eq (by omega) hpos]
  | @fromPrevLeaf back hback hlt =>
    have hself : toInt32 (back.leafPos : ℤ) = back.leafPos :=
      toInt32_of_fits (by omega) (by exact_mod_cast hlt)
    have hdiff : (back.leafPos : ℤ) - (back.leafPos - pos) = pos := by omega
    simp only [Bucket.fillBody, hq.1, hq.2, hback, hself, hdiff, Filling.push_eq rfl hpos]
    simp
  | same hback heq =>
    have hself : toInt32 (pos : ℤ) = pos := toInt32_of_fits (by omega) (by exact_mod_cast hpos)
    simp [Bucket.fillBody, hq.1, hback, heq, hself, Filling.push_eq rfl hpos]

/-- One reference: the cheap hash, where it is written, and the position. -/
theorem follows_ref (ch cheapHash : ℕ) (h : Places off acc pos f) (hpos : pos < 2 ^ 31) :
    MessageParser.Follows (Bucket.fillBody off) (cheapHashField ch cheapHash ++ [f]) ⟨ch, acc⟩
      ⟨cheapHash, acc ++ [⟨cheapHash, pos, none⟩]⟩ := by
  have hchp : MessageParser.Follows (Bucket.fillBody off) (cheapHashField ch cheapHash) ⟨ch, acc⟩
      ⟨cheapHash, acc⟩ := by
    by_cases hsame : ch = cheapHash
    · rw [cheapHashField, if_neg (not_not.mpr hsame), hsame]
      exact rfl
    · rw [cheapHashField, if_pos hsame]
      refine ⟨_, fun q hq => ?_, rfl⟩
      simp [Bucket.fillBody, hq.1, hq.2]
  exact hchp.append ⟨_, fun q hq => h.fillBody hpos cheapHash hq, rfl⟩

/-- The four ways to save a position. -/
theorem tagToUse_cases (off prevPos leafPos : ℤ) :
    tagToUse off prevPos leafPos = (LeafPosition, leafPos) ∨
    tagToUse off prevPos leafPos = (LeafPosOn512MB, leafPos - 512 * 1024 * 1024) ∨
    tagToUse off prevPos leafPos = (LeafPosRelToBucket, off - leafPos) ∨
    (0 ≤ prevPos ∧ tagToUse off prevPos leafPos = (LeafPosFromPrevLeaf, prevPos - leafPos)) := by
  unfold tagToUse
  dsimp only
  by_cases hprev : 0 ≤ prevPos
  · split_ifs <;> simp_all
  · split_ifs <;> simp_all

/-- The position of the reference before, or -1. -/
def prevPos (acc : List OutputRef) : ℤ := acc.getLast?.elim (-1) fun back => back.leafPos

theorem places_positionField (hacc : ∀ r ∈ acc, r.leafPos < 2 ^ 31) (hle : pos ≤ off) :
    Places off acc pos (positionField off (prevPos acc) pos) := by
  rw [positionField]
  cases hback : acc.getLast? with
  | none =>
    have hprev : prevPos acc = -1 := by rw [prevPos, hback]; rfl
    rw [if_neg (by omega)]
    rcases tagToUse_cases off (prevPos acc) pos with h | h | h | ⟨hnonneg, -⟩
    · rw [h]; exact .position
    · rw [h]; exact .on512MB
    · rw [h]; exact .relToBucket hle
    · omega
  | some back =>
    have hprev : prevPos acc = back.leafPos := by rw [prevPos, hback]; rfl
    have hlt := hacc back (mem_of_getLast? hback)
    split_ifs with hsame
    · exact .same hback (by omega)
    · rcases tagToUse_cases off (prevPos acc) pos with h | h | h | ⟨-, h⟩
      · rw [h]; exact .position
      · rw [h]; exact .on512MB
      · rw [h]; exact .relToBucket hle
      · rw [h, hprev]; exact .fromPrevLeaf hback hlt

theorem prevPos_concat (acc : List OutputRef) (r : OutputRef) : prevPos (acc ++ [r]) = r.leafPos := by
  rw [prevPos, getLast?_concat]
  rfl

theorem forall_mem_concat (hacc : ∀ r ∈ acc, r.leafPos < 2 ^ 31) (hr : r.leafPos < 2 ^ 31) :
    ∀ x ∈ acc ++ [r], x.leafPos < 2 ^ 31 :=
  forall_mem_append.mpr ⟨hacc, forall_mem_singleton.mpr hr⟩

theorem short_cheapHashField {prevCH cheapHash : ℕ} (h : cheapHash < 2 ^ 64) :
    ∀ f ∈ cheapHashField prevCH cheapHash, f.Short := by
  unfold cheapHashField
  split_ifs
  · exact forall_mem_singleton.mpr (.long (by decide) h)
  · exact forall_mem_nil _

/-- A reference that a bucket at `offset` can be saved with. -/
structure Savable (offset : ℕ) (r : OutputRef) : Prop where
  cheapHash_lt : r.cheapHash < 2 ^ 64
  leafPos_le : r.leafPos ≤ offset
  noOutput : r.unspentOutput = none

theorem Savable.leafPos_fits (h : Savable off r) (hoff : off < 2 ^ 31) :
    r.leafPos < 2 ^ 31 ∧ toInt32 (r.leafPos : ℤ) = r.leafPos := by
  have hle := h.leafPos_le
  exact ⟨by omega, toInt32_of_fits (by omega) (by omega)⟩

section

variable (ch : ℕ) (hoff : off < 2 ^ 31) (hacc : ∀ r ∈ acc, r.leafPos < 2 ^ 31)
  (hrefs : ∀ r ∈ refs, Savable off r)
include ch hoff hacc hrefs

theorem follows_saveFields :
    ∃ ch', MessageParser.Follows (Bucket.fillBody off) (saveFields off ch (prevPos acc) refs) ⟨ch, acc⟩
      ⟨ch', acc ++ refs⟩ := by
  induction refs generalizing ch acc with
  | nil => exact ⟨ch, by rw [append_nil]; rfl⟩
  | cons r refs ih =>
    obtain ⟨hr, hrefs⟩ := forall_mem_cons.mp hrefs
    obtain ⟨hpos, hself⟩ := hr.leafPos_fits hoff
    have hr' : (⟨r.cheapHash, r.leafPos, none⟩ : OutputRef) = r := by
      obtain ⟨-, -, hnone⟩ := hr
      cases r
      simp_all
    have hacc' := forall_mem_concat hacc hpos
    have hprev := prevPos_concat acc r
    obtain ⟨ch', hrest⟩ := ih r.cheapHash hacc' hrefs
    have hone := follows_ref ch r.cheapHash (places_positionField hacc hr.leafPos_le) hpos
    rw [hr'] at hone
    rw [hprev, append_assoc] at hrest
    refine ⟨ch', ?_⟩
    rw [saveFields, hself, append_cons]
    exact hone.append hrest

theorem short_saveFields : ∀ f ∈ saveFields off ch (prevPos acc) refs, f.Short := by
  induction refs generalizing ch acc with
  | nil => simp [saveFields]
  | cons r refs ih =>
    obtain ⟨hr, hrefs⟩ := forall_mem_cons.mp hrefs
    obtain ⟨hpos, hself⟩ := hr.leafPos_fits hoff
    have hacc' := forall_mem_concat hacc hpos
    have hprev := prevPos_concat acc r
    have hrest := ih r.cheapHash hacc' hrefs
    rw [hprev] at hrest
    rw [saveFields, hself]
    exact forall_mem_append.mpr ⟨short_cheapHashField hr.cheapHash_lt,
      forall_mem_cons.mpr ⟨(places_positionField hacc hr.leafPos_le).short hpos hoff, hrest⟩⟩

end

theorem fillFromDisk_saveToDisk (hoff : off < 2 ^ 31) (hrefs : ∀ r ∈ refs, Savable off r)
    (rest : Bytes) :
    fillFromDisk (saveToDisk refs off ++ rest) off = .ok refs := by
  have hnone : ∀ r ∈ ([] : List OutputRef), r.leafPos < 2 ^ 31 := by simp
  have hst : prevPos [] = -1 := rfl
  obtain ⟨ch, hfol⟩ := follows_saveFields 0 hoff hnone hrefs
  have hlv : ∀ q, (Field.bool Separator true).ReadAs q →
      Bucket.fillBody off q ⟨ch, [] ++ refs⟩ = .inr (.ok refs) :=
    fun q hq => by simp [Bucket.fillBody, hq.1]
  obtain ⟨q, -, hrun⟩ := MessageParser.forFields_last rest (short_saveFields 0 hoff hnone hrefs)
    Leaf.short_separator
    hfol hlv
  rw [hst] at hrun
  rw [fillFromDisk, saveToDisk, append_assoc, hrun]

end Bucket

end FloweeHub.UODB
