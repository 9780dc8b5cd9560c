import Mathlib.Order.Interval.Finset.Nat
import FloweeHub.Streaming.UntilEnd
import FloweeHub.Utxo.InfoFile
import FloweeHub.Utxo.Opening

/-! The rotation of info files. A save deletes the lowest ones above a number and writes to an index
that no other has; there are more indices than that number. The heights are read from the first 32
bytes of each file, in a loop that ends unless an array with one of the two tags takes the parser
back. A file that cannot be opened for writing is left out. -/

namespace FloweeHub.UODB.DataFileCache

open List Function Streaming MessageParser

open Opening (MAX_INFO_NUM)

def MAX_INFO_FILES : ℕ := 13

/-- What `parseInfoFile` finds in an info file; it is -1 for what it does not find. -/
structure Heights where
  initialBlockHeight : ℤ := -1
  lastBlockHeight : ℤ := -1
deriving DecidableEq, Repr

/-- The heights of a file with its number. -/
structure InfoFile extends Heights where
  index : ℕ
deriving DecidableEq, Repr

/-- The bytes of the info file with each index. -/
abbrev Files := ℕ → Option Bytes

/-- The loop of `parseInfoFile`. There is no result as long as it has not ended. -/
def readHeights : ℕ → MessageParser → Heights → Option Heights
  | 0, _, _ => none
  | turns + 1, p, heights =>
    match p.next with
    | (.foundTag, q) =>
      if q.tag = LastBlockHeight then readHeights turns q { heights with lastBlockHeight := q.intData }
      else if q.tag = FirstBlockHeight then
        readHeights turns q { heights with initialBlockHeight := q.intData }
      else some heights
    | _ => some heights

/-- There are no more places in the 32 bytes than turns. In a shorter file the rest of the buffer is not
initialised, and there is no result. -/
def parseBytes (file : Bytes) : Option Heights :=
  if file.length < 32 then none else readHeights 33 (ofBuffer (file.take 32)) {}

def parseInfoFile (files : Files) (index : ℕ) : Option InfoFile :=
  match files index with
  | none => some ⟨{}, index⟩
  | some file => (parseBytes file).map fun heights => ⟨heights, index⟩

def create (files : Files) : Option (List InfoFile) :=
  ((range' 1 (MAX_INFO_NUM - 1)).mapM (parseInfoFile files)).map fun infos =>
    infos.filter fun info => 0 ≤ info.initialBlockHeight

def lower (lowest info : InfoFile) : InfoFile :=
  if info.lastBlockHeight < lowest.lastBlockHeight then info else lowest

/-- The loop that deletes the info files above the number. -/
def deleteLowest : ℕ → List InfoFile → Files → List InfoFile × Files
  | fuel + 1, first :: rest, files =>
    if MAX_INFO_FILES < (first :: rest).length then
      let lowest := rest.foldl lower first
      deleteLowest fuel ((first :: rest).erase lowest) (update files lowest.index none)
    else (first :: rest, files)
  | _, infos, files => (infos, files)

def firstUnused (infos : List InfoFile) : Option ℕ :=
  (range' 1 (MAX_INFO_NUM - 1)).find? fun newIndex => infos.all fun info => info.index ≠ newIndex

/-- The index behind the highest file, or one that is free. -/
def newIndex (infos : List InfoFile) : Option ℕ :=
  let newIndex := infos.foldl (fun newIndex info => max newIndex info.index) 1 + 1
  if MAX_INFO_NUM ≤ newIndex then firstUnused infos else some newIndex

/-- The index written to and the info files afterwards, if the files are read to an end, there is an
index and no assert fails. -/
def writeInfoFile (hash : Bytes → Uint256) (source : DataFile) (files : Files) : Option (ℕ × Files) := do
  let infos ← create files
  let (infos, files) := deleteLowest infos.length infos files
  let index ← newIndex infos
  if 0 < index ∧ index < MAX_INFO_NUM then
    return (index, update files index (some (source.writeInfoFile hash)))
  else none

/-! ### Reading the heights -/

section Reading

variable {file buf : Bytes} {heights : Heights} {n k : ℕ} {p : MessageParser}

/-- This round of the loop is not its last. -/
def GoesOn (buf : Bytes) (k : ℕ) : Prop :=
  (after buf k).next.1 = .foundTag ∧
    ((after buf (k + 1)).tag = LastBlockHeight ∨ (after buf (k + 1)).tag = FirstBlockHeight)

/-- The file fills the buffer, and no field with one of the two heights takes the parser back. -/
structure Readable (file : Bytes) : Prop where
  full : 32 ≤ file.length
  forward : ∀ k, (∀ j ≤ k, GoesOn (file.take 32) j) → (after (file.take 32) k).stepsBack = false

theorem readHeights_eq_none : readHeights n (after buf k) heights = none ↔
      ∀ i < n, GoesOn buf (k + i) := by
  induction n generalizing k heights with
  | zero => simp [readHeights]
  | succ n ih =>
    have hspl : (∀ i < n + 1, GoesOn buf (k + i)) ↔ GoesOn buf k ∧ ∀ i < n, GoesOn buf (k + 1 + i) := by
      rw [Nat.forall_lt_succ_left]
      simp only [Nat.add_zero, Nat.add_comm, Nat.add_left_comm]
    rw [hspl, readHeights]
    rcases hnext : (after buf k).next with ⟨r, q⟩
    have hq : q = after buf (k + 1) := by rw [MessageParser.after, hnext]
    rw [GoesOn, hnext, hq]
    cases r with
    | foundTag =>
      dsimp only
      split_ifs with hlast hfirst
      · simp [ih, hlast]
      · simp [ih, hfirst]
      · simp [hlast, hfirst]
    | error | endOfDocument => simp

theorem Readable.parseBytes (h : Readable file) : ∃ heights, parseBytes file = some heights := by
  have hlen : (file.take 32).length = 32 := by simpa using h.full
  have hin : ∀ k, GoesOn (file.take 32) k →
      (after (file.take 32) k).position < (file.take 32).length := by
    intro k hk
    refine not_le.mp fun hle => ?_
    have hend := next_eq_end_iff.mpr (hle.trans_eq' (congrArg length (data_after (file.take 32) k).symm))
    cases hk.1.symm.trans hend
  obtain ⟨k, hk, hstop⟩ := ends_of_forward hin fun k hgoes => by
    have hfd := (hgoes k le_rfl).1
    refine position_lt_next (by rw [data_after]; exact hin k (hgoes k le_rfl)) ?_ (h.forward k hgoes)
    rw [Bool.eq_false_iff]
    intro hstands
    rw [(next_of_standsStill hstands).1] at hfd
    cases hfd
  rw [DataFileCache.parseBytes, if_neg (by have := h.full; omega), ← Option.ne_none_iff_exists', ne_eq,
    ← MessageParser.after, readHeights_eq_none]
  intro hgoes
  refine hstop ?_
  have := hgoes k (by omega)
  rwa [Nat.zero_add] at this

end Reading

/-- The heights of a file, where they are read to an end. -/
def heightsOf (file : Option Bytes) : Heights := (file.bind parseBytes).getD {}

def found (files : Files) (index : ℕ) : InfoFile := ⟨heightsOf (files index), index⟩

/-- The valid info files, where each is read to an end. -/
def validInfoFiles (files : Files) : List InfoFile :=
  ((range' 1 (MAX_INFO_NUM - 1)).map (found files)).filter fun info => 0 ≤ info.initialBlockHeight

theorem create_eq {fs : Files} (h : ∀ i file, fs i = some file → Readable file) :
    create fs = some (validInfoFiles fs) := by
  have hparse : ∀ i, parseInfoFile fs i = some (found fs i) := by
    intro i
    rw [parseInfoFile, found, heightsOf]
    cases hi : fs i with
    | none => rfl
    | some file =>
      obtain ⟨heights, hheights⟩ := (h i file hi).parseBytes
      simp [hheights]
  have hall := mapM_pure (m := Option) (l := range' 1 (MAX_INFO_NUM - 1)) (f := found fs)
  rw [create, funext hparse]
  exact congrArg (Option.map _) hall

/-! ### The two loops -/

variable {fs : Files} {infos : List InfoFile} {info lowest : InfoFile}

/-- The search finds a file of the lowest height. -/
theorem lowest_spec (first : InfoFile) (rest : List InfoFile) : rest.foldl lower first ∈ first :: rest ∧
    ∀ info ∈ first :: rest, (rest.foldl lower first).lastBlockHeight ≤ info.lastBlockHeight := by
  induction rest generalizing first with
  | nil => simp
  | cons second rest ih =>
    obtain ⟨hmem, hle⟩ := ih (lower first second)
    rw [forall_mem_cons] at hle
    rw [foldl_cons, forall_mem_cons, forall_mem_cons]
    obtain ⟨heq, hfst, hsec⟩ : (lower first second = first ∨ lower first second = second) ∧
        (lower first second).lastBlockHeight ≤ first.lastBlockHeight ∧
        (lower first second).lastBlockHeight ≤ second.lastBlockHeight := by
      rw [lower]
      split_ifs <;> simp <;> omega
    refine ⟨?_, hle.1.trans hfst, hle.1.trans hsec, hle.2⟩
    generalize rest.foldl lower (lower first second) = lowest at hmem
    rcases heq with heq | heq <;> rw [heq] at hmem <;> simp only [mem_cons] at hmem ⊢ <;> tauto

theorem mem_validInfoFiles : info ∈ validInfoFiles fs ↔
    (1 ≤ info.index ∧ info.index < MAX_INFO_NUM) ∧ 0 ≤ info.initialBlockHeight ∧
      info = found fs info.index := by
  simp only [validInfoFiles, mem_filter, mem_map, mem_range'_1, decide_eq_true_eq]
  constructor
  · rintro ⟨⟨i, hi, rfl⟩, hval⟩
    exact ⟨hi, hval, rfl⟩
  · rintro ⟨hi, hval, heq⟩
    exact ⟨⟨info.index, by omega, heq.symm⟩, hval⟩

/-- Another file at `i` only matters for the info file with that index. -/
theorem mem_validInfoFiles_update {i : ℕ} {file : Option Bytes} (h : info.index ≠ i) :
    info ∈ validInfoFiles (update fs i file) ↔ info ∈ validInfoFiles fs := by
  rw [mem_validInfoFiles, mem_validInfoFiles, found, found, update_of_ne h]

theorem mem_validInfoFiles_delete (hlowest : lowest ∈ validInfoFiles fs) :
    info ∈ validInfoFiles (update fs lowest.index none) ↔ info ≠ lowest ∧ info ∈ validInfoFiles fs := by
  by_cases hix : info.index = lowest.index
  · constructor
    · intro h
      obtain ⟨-, hpos, heq⟩ := mem_validInfoFiles.mp h
      rw [heq, found, hix, update_self] at hpos
      exact absurd hpos (show ¬ (0 : ℤ) ≤ -1 by decide)
    · rintro ⟨hne, h⟩
      have heq := (mem_validInfoFiles.mp h).2.2
      rw [hix, ← (mem_validInfoFiles.mp hlowest).2.2] at heq
      exact absurd heq hne
  · rw [mem_validInfoFiles_update hix, and_iff_right fun heq => hix (congrArg InfoFile.index heq)]

/-- `kept` are the highest of `infos`, and the only valid info files that are left. -/
structure Kept (infos kept : List InfoFile) (left : Files) : Prop where
  sublist : kept.Sublist infos
  length : kept.length = min MAX_INFO_FILES infos.length
  highest : ∀ a ∈ kept, ∀ b ∈ infos, b ∉ kept → b.lastBlockHeight ≤ a.lastBlockHeight
  valid : ∀ info, info ∈ validInfoFiles left ↔ info ∈ kept

theorem Kept.refl (h : infos.length ≤ MAX_INFO_FILES)
    (hval : ∀ info, info ∈ validInfoFiles fs ↔ info ∈ infos) :
    Kept infos infos fs :=
  ⟨.refl _, (min_eq_right h).symm, fun _ _ _ hb hn => absurd hb hn, hval⟩

/-- Deleting the lowest info file first. -/
theorem Kept.delete {kept : List InfoFile} {left : Files} (hmem : lowest ∈ infos)
    (hlowest : ∀ info ∈ infos, lowest.lastBlockHeight ≤ info.lastBlockHeight)
    (hmany : MAX_INFO_FILES < infos.length) (h : Kept (infos.erase lowest) kept left) :
    Kept infos kept left := by
  have hsub := h.sublist.trans erase_sublist
  have hlen := h.length
  rw [length_erase_of_mem hmem] at hlen
  refine ⟨hsub, by omega, ?_, h.valid⟩
  intro a ha b hb hnb
  obtain rfl | hne := eq_or_ne b lowest
  · exact hlowest a (hsub.subset ha)
  · exact h.highest a ha b ((mem_erase_of_ne hne).mpr hb) hnb

/-- The loop keeps the highest files. -/
theorem deleteLowest_spec {fuel : ℕ} (hfuel : infos.length ≤ fuel + MAX_INFO_FILES) (hnd : infos.Nodup)
    (hval : ∀ info, info ∈ validInfoFiles fs ↔ info ∈ infos) :
    Kept infos (deleteLowest fuel infos fs).1 (deleteLowest fuel infos fs).2 := by
  induction fuel generalizing infos fs with
  | zero => exact .refl (by omega) hval
  | succ fuel ih =>
    cases infos with
    | nil => exact .refl (by simp) hval
    | cons first rest =>
      rw [deleteLowest]
      split_ifs with hmany
      · obtain ⟨hmem, hlowest⟩ := lowest_spec first rest
        have hlen := length_erase_of_mem hmem
        apply Kept.delete hmem hlowest hmany
        apply ih (by omega) (hnd.erase _)
        intro info
        rw [mem_validInfoFiles_delete ((hval _).mpr hmem), hval, hnd.mem_erase_iff]
      · exact .refl (by omega) hval

/-- Fewer info files than indexes leave one free. -/
theorem newIndex_spec (h : infos.length < MAX_INFO_NUM - 1) :
    ∃ i, newIndex infos = some i ∧ 0 < i ∧ i < MAX_INFO_NUM ∧ i ∉ infos.map InfoFile.index := by
  have hmax : ∀ (l : List InfoFile) (n : ℕ), n ≤ l.foldl (fun n info => max n info.index) n ∧
      ∀ info ∈ l, info.index ≤ l.foldl (fun n info => max n info.index) n := by
    intro l
    induction l with
    | nil => simp
    | cons info l ih =>
      intro n
      obtain ⟨hle, hall⟩ := ih (max n info.index)
      rw [foldl_cons, forall_mem_cons]
      exact ⟨by omega, by omega, hall⟩
  obtain ⟨hone, hall⟩ := hmax infos 1
  rw [newIndex]
  split_ifs with hwrap
  · cases hfind : firstUnused infos with
    | some i =>
      have hi := mem_range'_1.mp (mem_of_find?_eq_some hfind)
      have hunused := find?_some hfind
      exact ⟨i, rfl, hi.1, hi.2, by simpa using hunused⟩
    | none =>
      have hfull : range' 1 (MAX_INFO_NUM - 1) ⊆ infos.map InfoFile.index := by
        intro i hi
        simpa using find?_eq_none.mp hfind i hi
      have hnd : (range' 1 (MAX_INFO_NUM - 1)).Nodup := by decide
      have hlen := (hnd.subperm hfull).length_le
      rw [length_range', length_map] at hlen
      omega
  · refine ⟨_, rfl, by omega, by omega, fun hmem => ?_⟩
    obtain ⟨info, hinfo, heq⟩ := mem_map.mp hmem
    have := hall info hinfo
    omega

/-! ### Writing -/

section Writing

variable {hash : Bytes → Uint256} {src : DataFile}

/-- The two heights are values of their C++ type. -/
structure HeightsFit (d : DataFile) : Prop where
  initialBlockHeight : -2 ^ 31 ≤ d.initialBlockHeight ∧ d.initialBlockHeight < 2 ^ 31
  lastBlockHeight : -2 ^ 31 ≤ d.lastBlockHeight ∧ d.lastBlockHeight < 2 ^ 31

def heightsIn (d : DataFile) : Heights := ⟨d.initialBlockHeight, d.lastBlockHeight⟩

theorem length_int_le {tag : ℕ} (ht : tag < 31) (v : ℤ) : (Field.int tag v).write.length ≤ 11 := by
  rw [DataFile.length_intField ht, Bucket.serialisedIntSize]
  have : (serialize v.natAbs).length ≤ 10 := length_serializeGroups_le 10 false _
  omega

/-- The first 32 bytes hold the two heights and the start of the block id. -/
theorem take_writeInfoFile (hash : Bytes → Uint256) (d : DataFile) :
    32 ≤ (d.writeInfoFile hash).length ∧ ∃ rest, (d.writeInfoFile hash).take 32 =
      (Field.int FirstBlockHeight d.initialBlockHeight).write ++
        ((Field.int LastBlockHeight d.lastBlockHeight).write ++
          (writeTag LastBlockId .byteArray ++ rest)) := by
  obtain ⟨rest, hrest⟩ : ∃ rest, d.writeInfoFile hash =
    ((Field.int FirstBlockHeight d.initialBlockHeight).write ++
      ((Field.int LastBlockHeight d.lastBlockHeight).write ++ writeTag LastBlockId .byteArray)) ++
        rest :=
    ⟨_, by
      simp only [DataFile.writeInfoFile, DataFile.header, DataFile.headerFields, flatMap_append,
        flatMap_cons, append_assoc, cons_append, nil_append]
      rfl⟩
  have hfirst := length_int_le (show FirstBlockHeight < 31 by decide) d.initialBlockHeight
  have hlast := length_int_le (show LastBlockHeight < 31 by decide) d.lastBlockHeight
  constructor
  · rw [DataFile.writeInfoFile, length_append, length_jumptableBytes]
    omega
  · have htag : (writeTag LastBlockId .byteArray).length = 1 := rfl
    rw [hrest, take_append, take_of_length_le (by simp only [length_append]; omega), append_assoc,
      append_assoc]
    exact ⟨_, rfl⟩

/-- The third field is not read further, whether it is found or not. -/
theorem readHeights_of_otherTag {p : MessageParser} {turns : ℕ} {heights : Heights}
    (h : p.next.2.tag = LastBlockId) : readHeights (turns + 1) p heights = some heights := by
  rw [readHeights]
  rcases hnext : p.next with ⟨r, q⟩
  rw [hnext] at h
  cases r with
  | foundTag => simp [show q.tag = LastBlockId from h]
  | error | endOfDocument => rfl

/-- What is written is read back, and to an end. -/
theorem parse_writeInfoFile (h : HeightsFit src) :
    Readable (src.writeInfoFile hash) ∧ parseBytes (src.writeInfoFile hash) = some (heightsIn src) := by
  obtain ⟨hlen, rest, hbuf⟩ := take_writeInfoFile hash src
  have hdrop : (ofBuffer ((src.writeInfoFile hash).take 32)).data.drop
      (ofBuffer ((src.writeInfoFile hash).take 32)).position = _ := hbuf
  have hfirst : (Field.int FirstBlockHeight src.initialBlockHeight).Short :=
    .int (by decide) h.initialBlockHeight.1 h.initialBlockHeight.2
  have hlast : (Field.int LastBlockHeight src.lastBlockHeight).Short :=
    .int (by decide) h.lastBlockHeight.1 h.lastBlockHeight.2
  obtain ⟨q1, ⟨hnext1, -, hpos1, hrest1, -⟩, htag1, hval1⟩ := next_field hfirst hdrop
  obtain ⟨q2, ⟨hnext2, -, hpos2, hrest2, -⟩, htag2, hval2⟩ := next_field hlast hrest1
  have htag3 : q2.next.2.tag = LastBlockId := by
    rw [next_of_writeTag (by decide) hrest2, tag_readValue]
  have hafter1 : after ((src.writeInfoFile hash).take 32) 1 = q1 := congrArg Prod.snd hnext1
  have hafter2 : after ((src.writeInfoFile hash).take 32) 2 = q2 := by
    rw [MessageParser.after, hafter1, hnext2]
  refine ⟨⟨hlen, fun k hgoes => ?_⟩, ?_⟩
  · rw [Bool.eq_false_iff]
    intro hback
    have hle := position_next_of_stepsBack hback
    rcases k with _ | _ | k
    · have hpos := Field.length_write_pos (.int FirstBlockHeight src.initialBlockHeight)
      rw [MessageParser.after, hnext1, hpos1] at hle
      omega
    · have hpos := Field.length_write_pos (.int LastBlockHeight src.lastBlockHeight)
      rw [Nat.zero_add, hafter1, hnext2, hpos2] at hle
      omega
    · obtain ⟨-, htag⟩ := hgoes 2 (by omega)
      rw [MessageParser.after, hafter2, htag3] at htag
      exact absurd htag (by decide)
  · rw [parseBytes, if_neg (by omega), readHeights, hnext1]
    dsimp only
    rw [htag1, if_neg (by decide), if_pos rfl, readHeights, hnext2]
    dsimp only
    rw [htag2, if_pos rfl, readHeights_of_otherTag htag3, hval1, hval2]
    rfl

end Writing

/-- A round wrote `source` to a free index and kept the highest of the valid info files. -/
structure Rotated (hash : Bytes → Uint256) (files : Files) (source : DataFile) (index : ℕ)
    (kept : List InfoFile) (after : Files) : Prop where
  index_pos : 0 < index
  index_lt : index < MAX_INFO_NUM
  sublist : kept.Sublist (validInfoFiles files)
  length : kept.length = min MAX_INFO_FILES (validInfoFiles files).length
  highest : ∀ a ∈ kept, ∀ b ∈ validInfoFiles files, b ∉ kept → b.lastBlockHeight ≤ a.lastBlockHeight
  free : ∀ info ∈ kept, info.index ≠ index
  written : after index = some (source.writeInfoFile hash)
  valid_after : 0 ≤ source.initialBlockHeight →
    ∀ info, info ∈ validInfoFiles after ↔ info = ⟨heightsIn source, index⟩ ∨ info ∈ kept

theorem nodup_validInfoFiles (fs : Files) : (validInfoFiles fs).Nodup := by
  apply List.Nodup.filter
  apply List.Nodup.map_on
  · intro i _ j _ h
    exact congrArg InfoFile.index h
  · decide

/-- Files are only deleted. -/
theorem deleteLowest_files (fuel : ℕ) (infos : List InfoFile) (fs : Files) {i : ℕ} {file : Bytes}
    (h : (deleteLowest fuel infos fs).2 i = some file) : fs i = some file := by
  induction fuel generalizing infos fs with
  | zero => exact h
  | succ fuel ih =>
    cases infos with
    | nil => exact h
    | cons first rest =>
      rw [deleteLowest] at h
      split_ifs at h
      · have hleft := ih _ _ h
        by_cases hi : i = (rest.foldl lower first).index
        · rw [hi, update_self] at hleft
          cases hleft
        · rwa [update_of_ne hi] at hleft
      · exact h

variable {hash : Bytes → Uint256}

theorem writeInfoFile_rotated {src : DataFile} (hsrc : HeightsFit src)
    (hfs : ∀ i file, fs i = some file → Readable file) :
    ∃ ix kept after, writeInfoFile hash src fs = some (ix, after) ∧ Rotated hash fs src ix kept after ∧
      ∀ i file, after i = some file → Readable file := by
  have hkept := deleteLowest_spec (Nat.le_add_right _ MAX_INFO_FILES) (nodup_validInfoFiles fs)
    fun _ => Iff.rfl
  have hleft := @deleteLowest_files (validInfoFiles fs).length (validInfoFiles fs) fs
  generalize hdelete : deleteLowest (validInfoFiles fs).length (validInfoFiles fs) fs = r at hkept hleft
  obtain ⟨kept, left⟩ := r
  have hfew : kept.length < MAX_INFO_NUM - 1 := by
    rw [hkept.length]
    exact (min_le_left _ _).trans_lt (by decide)
  obtain ⟨ix, hix, hpos, hlt, hunused⟩ := newIndex_spec hfew
  have hfree : ∀ info ∈ kept, info.index ≠ ix := fun info hinfo heq =>
    hunused (heq ▸ mem_map_of_mem hinfo)
  obtain ⟨hread, hparse⟩ := @parse_writeInfoFile hash _ hsrc
  refine ⟨ix, kept, update left ix (some (src.writeInfoFile hash)), ?_,
    ⟨hpos, hlt, hkept.sublist, hkept.length, hkept.highest, hfree, update_self .., ?_⟩,
    fun i file hfile => ?_⟩
  · simp [writeInfoFile, create_eq hfs, hdelete, hix, hpos, hlt]
  · intro hsource info
    have hheights : heightsOf (some (src.writeInfoFile hash)) = heightsIn src := by
      simp [heightsOf, hparse]
    by_cases heq : info.index = ix
    · have hnot : info ∉ kept := fun hk => hfree info hk heq
      rw [or_iff_left hnot, mem_validInfoFiles, found, heq, update_self, hheights]
      constructor
      · exact fun h => h.2.2
      · rintro rfl
        exact ⟨⟨hpos, hlt⟩, hsource, rfl⟩
    · have hnew : info ≠ ⟨heightsIn src, ix⟩ := fun h => heq (congrArg InfoFile.index h)
      rw [or_iff_right hnew, mem_validInfoFiles_update heq, hkept.valid]
  · by_cases hi : i = ix
    · rw [hi, update_self] at hfile
      exact Option.some.inj hfile ▸ hread
    · rw [update_of_ne hi] at hfile
      exact hfs i file (hleft hfile)

/-- An array in the place of the first height whose length takes the parser back to its first byte. -/
def backwardFile : Bytes := 0x4B :: 0x80 :: replicate 8 0xFE ++ 0x75 :: replicate 21 0

end FloweeHub.UODB.DataFileCache
