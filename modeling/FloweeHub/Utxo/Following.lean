import FloweeHub.Primitives.Serialize
import FloweeHub.Streaming.Progress
import FloweeHub.Utxo.Pruner

/-! What the bytes behind a leaf do to it. A record has no length, so its readers run on: the
constructor asks for one more field, and `matchesOutput` looks for an id until it finds one. -/

namespace FloweeHub.UODB

open Lib Streaming LittleEndian MessageParser List UnspentOutput

variable {l : Leaf} {rest : Bytes} {txid : Uint256} {ix : ℤ} {m : Matching} {p q : MessageParser}

/-- `matchesOutput` ends and returns `b`. -/
def MatchReturns (buffer : Bytes) (txid : Uint256) (index : ℤ) (b : Bool) : Prop :=
  ∃ x, MessageParser.Ends (matchBody txid index) (.ofBuffer buffer) {} x ∧
    x.elim (fun m => m.indexMatched && m.txidMatched) (fun r => r) = b

namespace Leaf

variable (l)

def shortId : Bytes := l.txid.toBytes.drop 8

/-- The record of the constructor and the one the pruner makes of it. -/
def records : List Bytes := [l.output.data, Pruner.copyLeaf l.output l.txid]

def behind (record rest : Bytes) : MessageParser :=
  { ofBuffer (record ++ rest) with position := record.length }

/-- The search for another id with the same cheap hash passes over the leaf's own short ids. -/
def strayBody (q : MessageParser) (_ : Unit) : Unit ⊕ Bool :=
  if q.tag = TXID then
    if q.arrayLength = 24 then if q.bytesDataBuffer = l.shortId then .inl () else .inr true
    else .inr (decide (q.arrayLength = 32 ∧ q.uint256Data ≠ l.txid ∧
      GetCheapHash q.uint256Data = l.cheapHash))
  else .inl ()

/-- The search behind a record comes to its end and finds no such id. -/
def NoStray (record rest : Bytes) : Prop :=
  ∃ x, MessageParser.Ends l.strayBody (behind record rest) () x ∧ x ≠ .inr true

theorem eq_of_cheapHash_of_drop {a b : Uint256} (hchp : GetCheapHash a = GetCheapHash b)
    (hdrop : a.toBytes.drop 8 = b.toBytes.drop 8) : a = b := by
  rw [← ofBytes_cheapHash_append a, hchp, hdrop, ofBytes_cheapHash_append]

/-- The id with the cheap hash of a leaf and a given second part. -/
def idWith (part : Bytes) : Uint256 := Uint256.ofBytes (encode 8 l.cheapHash ++ part)

theorem idWith_spec {part : Bytes} (l : Leaf) (h : part.length = 24) :
    GetCheapHash (l.idWith part) = l.cheapHash ∧ (l.idWith part).toBytes.drop 8 = part := by
  have hlen := length_encode 8 l.cheapHash
  have hbs : (l.idWith part).toBytes = encode 8 l.cheapHash ++ part :=
    Uint256.toBytes_ofBytes (by rw [length_append, hlen, h])
  rw [GetCheapHash, hbs, take_left' hlen, drop_left' hlen, decode_encode]
  exact ⟨Nat.mod_eq_of_lt (GetCheapHash_lt l.txid), rfl⟩

theorem length_shortId : l.shortId.length = 24 := by
  rw [shortId, length_drop, Uint256.length_toBytes]

theorem exists_ne_cheapHash : ∃ txid, txid ≠ l.txid ∧ GetCheapHash txid = l.cheapHash := by
  obtain ⟨part, hpart, hne⟩ : ∃ part : Bytes, part.length = 24 ∧ part ≠ l.shortId := by
    by_cases hzero : l.shortId = replicate 24 0
    · exact ⟨replicate 24 1, rfl, by rw [hzero]; decide⟩
    · exact ⟨replicate 24 0, rfl, Ne.symm hzero⟩
  obtain ⟨hchp, hdrop⟩ := l.idWith_spec hpart
  exact ⟨l.idWith part, fun heq => hne (by rw [← hdrop, heq, shortId]), hchp⟩

variable {l}

/-- The state of `matchesOutput` behind a record whose id did not match. -/
structure Waiting (index : ℤ) (m : Matching) : Prop where
  txidMatched : m.txidMatched = false
  decided : m.indexMatched = true ∨ m.separatorHit = true
  index_ne : m.indexMatched = false → index ≠ 0

theorem Waiting.matchBody_eq (h : Waiting ix m) (txid : Uint256) (q : MessageParser) :
    matchBody txid ix q m =
      if q.tag = TXID then if q.arrayLength = 32 ∧ txid = q.uint256Data then .inr m.indexMatched
        else if q.arrayLength = 24 then if txid.toBytes.drop 8 = q.bytesDataBuffer then
          .inr m.indexMatched else .inl m
        else .inr false else .inl m := by
  obtain ⟨matched, indexMatched, separatorHit⟩ := m
  obtain ⟨hmatched, hdecided, hix⟩ := h
  subst hmatched
  by_cases htag : q.tag = TXID
  · have hmt : ∀ b : Bool, (if b ∧ (separatorHit ∨ indexMatched) then
        (.inr indexMatched : Matching ⊕ Bool)
        else .inl ⟨b, indexMatched, separatorHit⟩) =
          if b = true then .inr indexMatched else .inl ⟨false, indexMatched, separatorHit⟩ := by
      intro b
      cases b with
      | false => rfl
      | true => rw [if_pos ⟨rfl, hdecided.symm⟩, if_pos rfl]
    by_cases hwh : q.arrayLength = 32 ∧ txid = q.uint256Data
    · simpa [matchBody, htag, hwh] using hmt true
    · by_cases hsh : q.arrayLength = 24
      · simpa [matchBody, htag, hsh] using hmt (decide (txid.toBytes.drop 8 = q.bytesDataBuffer))
      · simp [matchBody, htag, hwh, hsh]
  · cases indexMatched with
    | true => simp [matchBody, htag]
    | false =>
      obtain rfl : separatorHit := hdecided.resolve_left Bool.false_ne_true
      by_cases hseparator : q.tag = Separator
      · simp [matchBody, hseparator, (hix rfl).symm]
      · simp [matchBody, htag, hseparator]

/-! ### The two searches -/

section Search

variable {x : Unit ⊕ Bool} {y : Matching ⊕ Bool} {u : Unit}

theorem strayBody_of_ne (h : ¬ q.tag = TXID) (u : Unit) : l.strayBody q u = .inl () := if_neg h

theorem strayBody_short (htag : q.tag = TXID) (hsh : q.arrayLength = 24) (u : Unit) :
    l.strayBody q u = if q.bytesDataBuffer = l.shortId then .inl () else .inr true := by
  rw [strayBody, if_pos htag, if_pos hsh]

theorem strayBody_other (htag : q.tag = TXID) (hsh : ¬ q.arrayLength = 24) (u : Unit) :
    l.strayBody q u = .inr (decide (q.arrayLength = 32 ∧ q.uint256Data ≠ l.txid ∧
      GetCheapHash q.uint256Data = l.cheapHash)) := by
  rw [strayBody, if_pos htag, if_neg hsh]

/-- What the search for any other id passes over, the one for a given transaction passes over. -/
theorem Waiting.matchBody_of_strayBody {u' : Unit} (h : Waiting ix m) (htxid : txid ≠ l.txid)
    (hchp : GetCheapHash txid = l.cheapHash) (hstr : l.strayBody q u = .inl u') :
    matchBody txid ix q m = .inl m := by
  rw [h.matchBody_eq]
  by_cases htag : q.tag = TXID
  · by_cases hsh : q.arrayLength = 24
    · rw [strayBody_short htag hsh] at hstr
      split_ifs at hstr with hown
      have hdrop : ¬ txid.toBytes.drop 8 = q.bytesDataBuffer :=
        fun hdrop => htxid (eq_of_cheapHash_of_drop hchp (hdrop.trans hown))
      rw [if_pos htag, if_neg (by omega), if_pos hsh, if_neg hdrop]
    · rw [strayBody_other htag hsh] at hstr
      cases hstr
  · rw [if_neg htag]

/-- Where the search for any other id finds none, the one for a given transaction does not. -/
theorem matchBody_ends_false (htxid : txid ≠ l.txid) (hchp : GetCheapHash txid = l.cheapHash)
    (hw : Waiting ix m) (h : MessageParser.Ends l.strayBody p u x) (hx : x ≠ .inr true) :
    ∃ y, MessageParser.Ends (matchBody txid ix) p m y ∧
      y.elim (fun m => m.indexMatched && m.txidMatched) (fun r => r) = false := by
  induction h with
  | done hnext => exact ⟨_, .done hnext, by simp [hw.txidMatched]⟩
  | @leave p q u r hnext hlv =>
    refine ⟨.inr false, .leave hnext ?_, rfl⟩
    rw [hw.matchBody_eq]
    by_cases htag : q.tag = TXID
    · by_cases hsh : q.arrayLength = 24
      · rw [strayBody_short htag hsh] at hlv
        split_ifs at hlv
        exact absurd hlv.symm hx
      · rw [strayBody_other htag hsh] at hlv
        have hnone : ¬ (q.arrayLength = 32 ∧ txid = q.uint256Data) := by
          rintro ⟨hwh, rfl⟩
          exact hx (by rw [← hlv, decide_eq_true (And.intro hwh (And.intro htxid hchp))])
        rw [if_pos htag, if_neg hnone, if_neg hsh]
    · rw [strayBody_of_ne htag] at hlv
      cases hlv
  | more hnext hmore _ ih =>
    obtain ⟨y, hends, hres⟩ := ih hx
    exact ⟨y, .more hnext (hw.matchBody_of_strayBody htxid hchp hmore) hends, hres⟩

/-- The search for any other id ends where the one for a given transaction does. -/
theorem strayBody_ends (htxid : txid ≠ l.txid) (hchp : GetCheapHash txid = l.cheapHash)
    (hw : Waiting ix m) (h : MessageParser.Ends (matchBody txid ix) p m y) :
    ∃ x, MessageParser.Ends l.strayBody p () x := by
  induction h with
  | done hnext => exact ⟨_, .done hnext⟩
  | @leave p q m r hnext hlv =>
    cases hstr : l.strayBody q () with
    | inl u => cases (hw.matchBody_of_strayBody htxid hchp hstr).symm.trans hlv
    | inr r => exact ⟨_, .leave hnext hstr⟩
  | @more p q m m' y hnext hmore _ ih =>
    cases hstr : l.strayBody q () with
    | inl u =>
      obtain rfl := Sum.inl.inj ((hw.matchBody_of_strayBody htxid hchp hstr).symm.trans hmore)
      obtain ⟨x, hends⟩ := ih hw
      exact ⟨x, .more hnext hstr hends⟩
    | inr r => exact ⟨_, .leave hnext hstr⟩

theorem exists_matchBody_ends (h : MessageParser.Ends l.strayBody p u x) (hx : x = .inr true)
    (hlen : p.data.length < 2 ^ 31) :
    ∃ txid, txid ≠ l.txid ∧ GetCheapHash txid = l.cheapHash ∧ ∀ ix m, Waiting ix m →
      MessageParser.Ends (matchBody txid ix) p m (.inr m.indexMatched) := by
  induction h with
  | done => cases hx
  | @leave p q u r hnext hlv =>
    obtain rfl := Sum.inr.inj hx
    by_cases htag : q.tag = TXID
    · by_cases hsh : q.arrayLength = 24
      · rw [strayBody_short htag hsh] at hlv
        split_ifs at hlv with hown
        have hsize := length_bytesDataBuffer hnext hlen hsh (by decide)
        obtain ⟨hchp, hdrop⟩ := l.idWith_spec hsize
        refine ⟨l.idWith q.bytesDataBuffer, fun heq => hown (by rw [← hdrop, heq, shortId]), hchp,
          fun ix m hw => ?_⟩
        refine .leave hnext ?_
        rw [hw.matchBody_eq, if_pos htag, if_neg (by omega), if_pos hsh, if_pos hdrop]
      · rw [strayBody_other htag hsh] at hlv
        obtain ⟨hwh, hne, hchp⟩ := of_decide_eq_true (Sum.inr.inj hlv)
        refine ⟨q.uint256Data, hne, hchp, fun ix m hw => .leave hnext ?_⟩
        rw [hw.matchBody_eq, if_pos htag, if_pos ⟨hwh, rfl⟩]
    · rw [strayBody_of_ne htag] at hlv
      cases hlv
  | more hnext hmore _ ih =>
    obtain ⟨txid, htxid, hchp, hends⟩ := ih hx (by rwa [next_data hnext])
    exact ⟨txid, htxid, hchp, fun ix m hw =>
      .more hnext (hw.matchBody_of_strayBody htxid hchp hmore) (hends ix m hw)⟩

end Search

/-! ### Reading and matching a record -/

variable {id : Bytes} {record : Bytes}

theorem samePlace_behind (hdata : q.data = record ++ rest) (hpos : q.position = record.length) :
    MessageParser.SamePlace q (behind record rest) := ⟨hdata.symm, hpos.symm⟩

/-- The reading constructor asks for one field more than the record has. -/
theorem ofBuffer_record_eq (hid : id.length < 2 ^ 31) (cheapHash : ℕ) :
    ofBuffer cheapHash (l.record id ++ rest) =
      if (behind (l.record id) rest).next.1 = .error then .error "Unparsable UTXO-record"
      else .ok { data := l.record id ++ rest, outIndex := l.outIndex, offsetInBlock := l.offsetInBlock,
                 blockHeight := l.blockHeight, cheapHash := cheapHash } := by
  obtain ⟨q, hpos, hrun⟩ := forFields_last rest (short_fields hid) short_separator
    (l.follows_readBody id) (r := ⟨l.blockHeight, l.offsetInBlock, l.outIndex, true, true⟩)
      fun q hq => by
      simp [readBody, readField, hq.1]
  have hdata := whileFound_data readBody ((l.record id ++ rest).length + 1)
    (.ofBuffer (l.record id ++ rest)) {}
  rw [← record_append] at hrun
  rw [← forFields, hrun] at hdata
  rw [next_fst_of_samePlace (samePlace_behind hdata hpos)]
  have hassert : 0 < l.blockHeight ∧ 0 ≤ l.offsetInBlock :=
    ⟨l.blockHeight_fits.1, by have hoff := l.offsetInBlock_fits.1; omega⟩
  simp only [UnspentOutput.ofBuffer, hrun]
  exact if_congr Iff.rfl rfl (if_pos hassert)

/-- The state in which `matchesOutput` leaves the short record of another transaction. -/
def waitingAt (l : Leaf) (index : ℤ) : Matching :=
  if l.outIndex = 0 then { indexMatched := decide (0 = index), separatorHit := true }
  else { indexMatched := true }

theorem waiting_waitingAt (l : Leaf) (ix : ℤ) : Waiting ix (l.waitingAt ix) := by
  rw [waitingAt]
  split_ifs with hzero
  · exact ⟨rfl, .inr rfl, fun h => Ne.symm (of_decide_eq_false h)⟩
  · exact ⟨rfl, .inl rfl, nofun⟩

theorem bytesDataBuffer_of_readAs (h : (Field.bytes TXID l.shortId).ReadAs q) :
    q.arrayLength = 24 ∧ q.bytesDataBuffer = l.shortId := by
  obtain ⟨-, harr, hbs, -⟩ := h
  have hlen := length_shortId l
  have hst : q.valueState = .lazyByteArray := by
    by_contra hst
    rw [bytesData, if_neg hst] at hbs
    rw [← hbs] at hlen
    cases hlen
  refine ⟨by rw [harr, hlen]; rfl, ?_⟩
  rw [bytesDataBuffer_of_lazy (by rw [hst]; decide), ← hbs, bytesData, if_pos hst]

/-- The fields of the short record up to the id of another transaction. -/
theorem follows_upToId (htxid : txid ≠ l.txid) (hchp : GetCheapHash txid = l.cheapHash) (ix : ℤ) :
    MessageParser.Follows (matchBody txid ix) (l.upToId l.shortId) {} {} := by
  refine (l.follows_place (matchBody_place txid ix)).append ⟨_, fun q hq => ?_, rfl⟩
  obtain ⟨harr, hbuf⟩ := bytesDataBuffer_of_readAs hq
  have hdrop : ¬ txid.toBytes.drop 8 = l.shortId := fun hdrop =>
    htxid (eq_of_cheapHash_of_drop hchp hdrop)
  simp [matchBody, hq.1, harr, hbuf, hdrop]

theorem follows_shortRecord (htxid : txid ≠ l.txid) (hchp : GetCheapHash txid = l.cheapHash)
    (hix : l.outIndex = 0 ∨ ix = l.outIndex) :
    MessageParser.Follows (matchBody txid ix) (l.fields l.shortId ++ [.bool Separator true]) {}
      (l.waitingAt ix) := by
  have hfs : l.fields l.shortId ++ [.bool Separator true] =
      l.upToId l.shortId ++ ((if l.outIndex ≠ 0 then [.int OutIndex l.outIndex] else []) ++
        [.bool Separator true]) := by
    simp [fields, UnspentOutput.fields, upToId, place]
  apply (follows_upToId htxid hchp ix).append
  by_cases hzero : l.outIndex = 0
  · rw [if_neg (not_not.mpr hzero), waitingAt, if_pos hzero]
    refine ⟨_, fun q hq => ?_, rfl⟩
    simp [matchBody, hq.1]
  · have hix := hix.resolve_left hzero
    rw [if_pos hzero, waitingAt, if_neg hzero]
    refine ⟨{ indexMatched := true }, fun q hq => ?_, _, fun q hq => ?_, rfl⟩
    · simp [matchBody, hq.1, hq.2, hix]
    · simp [matchBody, hq.1]

theorem matchBody_alike (txid : Uint256) (ix : ℤ) (q q' : MessageParser) (m : Matching)
    (h : MessageParser.Alike q q') : matchBody txid ix q' m = matchBody txid ix q m := by
  simp only [matchBody, h.tag, h.arrayLength_eq, h.uint256Data_eq, h.bytesDataBuffer_eq, h.intData_eq]

/-- Over the short record of another transaction, `matchesOutput` goes on behind the record. -/
theorem matchReturns_shortRecord_iff (htxid : txid ≠ l.txid) (hchp : GetCheapHash txid = l.cheapHash)
    (hix : l.outIndex = 0 ∨ ix = l.outIndex) (rest : Bytes) (b : Bool) :
    MatchReturns (l.record l.shortId ++ rest) txid ix b ↔
      ∃ y, MessageParser.Ends (matchBody txid ix) (behind (l.record l.shortId) rest) (l.waitingAt ix) y ∧
        y.elim (fun m => m.indexMatched && m.txidMatched) (fun r => r) = b := by
  have hsh : ∀ f ∈ l.fields l.shortId ++ [.bool Separator true], f.Short := by
    exact forall_mem_append.mpr ⟨short_fields (by rw [length_shortId]; decide),
      forall_mem_singleton.mpr short_separator⟩
  have hwr : l.record l.shortId = (l.fields l.shortId ++ [Field.bool Separator true]).flatMap
      Field.write := by
    rw [flatMap_append, flatMap_singleton]
    rfl
  have hst : (ofBuffer (l.record l.shortId ++ rest)).data.drop
      (ofBuffer (l.record l.shortId ++ rest)).position =
        (l.fields l.shortId ++ [Field.bool Separator true]).flatMap Field.write ++ rest := by
    rw [← hwr]
    rfl
  obtain ⟨q, hdata, hpos, -, -, hends⟩ := loop_follows hsh (follows_shortRecord htxid hchp hix) hst
  have hpl : MessageParser.SamePlace q (behind (l.record l.shortId) rest) := by
    apply samePlace_behind hdata
    rw [hpos, ← hwr]
    exact Nat.zero_add _
  have hsame : ∀ y, MessageParser.Ends (matchBody txid ix) q (l.waitingAt ix) y ↔
      MessageParser.Ends (matchBody txid ix) (behind (l.record l.shortId) rest) (l.waitingAt ix) y :=
    fun y => ⟨fun h => h.of_samePlace (matchBody_alike txid ix) hpl, fun h =>
      h.of_samePlace (matchBody_alike txid ix) hpl.symm⟩
  simp only [MatchReturns, hends, hsame]

theorem matchReturns_shortRecord (l : Leaf) (rest : Bytes) (ix : ℤ) :
    MatchReturns (l.record l.shortId ++ rest) l.txid ix
      (decide (l.txid = l.txid ∧ ix = l.outIndex)) := by
  have hid : l.shortId.length < 2 ^ 31 := by rw [length_shortId]; decide
  have hmt : ∀ q, (Field.bytes TXID l.shortId).ReadAs q →
      matchBody l.txid ix q {} = .inl { txidMatched := true } := by
    intro q hq
    obtain ⟨harr, hbuf⟩ := bytesDataBuffer_of_readAs hq
    simp [matchBody, hq.1, harr, hbuf, shortId]
  refine ⟨_, ends_of_forFields (forFields_match hid ix hmt), ?_⟩
  simp

/-- And for another transaction, when it holds another index. -/
theorem matchReturns_shortRecord_index (htxid : txid ≠ l.txid) (hchp : GetCheapHash txid = l.cheapHash)
    (hzero : l.outIndex ≠ 0) (hix : ix ≠ l.outIndex) (rest : Bytes) :
    MatchReturns (l.record l.shortId ++ rest) txid ix false := by
  obtain ⟨hlo, hhi⟩ := l.outIndex_fits
  have hid : l.shortId.length < 2 ^ 31 := by rw [length_shortId]; decide
  have hsh : (Field.int OutIndex l.outIndex).Short := .int (by decide) (by omega) hhi
  obtain ⟨q, -, hrun⟩ := forFields_last (r := false) ((Field.bool Separator true).write ++ rest)
    (short_upToId hid) hsh (follows_upToId htxid hchp ix) fun q hq => by
      simp [matchBody, hq.1, hq.2, hix]
  refine ⟨.inr false, ends_of_forFields ?_, rfl⟩
  rw [record_append_upToId, behindId, if_pos hzero, flatMap_singleton, hrun]

/-- Both records are read back and match the outpoint they were written for and no other. -/
structure SelfContained (l : Leaf) (rest : Bytes) : Prop where
  reads : ∀ record ∈ l.records, ∃ u, ofBuffer l.cheapHash (record ++ rest) = .ok u ∧
    u.blockHeight = l.blockHeight ∧ u.offsetInBlock = l.offsetInBlock ∧ u.outIndex = l.outIndex ∧
    u.prevTxId = .ok l.txid
  returns : ∀ record ∈ l.records, ∀ txid index, GetCheapHash txid = l.cheapHash →
    MatchReturns (record ++ rest) txid index (decide (txid = l.txid ∧ index = l.outIndex))

theorem reads_iff (h : record ∈ l.records) :
    (∃ u, ofBuffer l.cheapHash (record ++ rest) = .ok u ∧ u.blockHeight = l.blockHeight ∧
      u.offsetInBlock = l.offsetInBlock ∧ u.outIndex = l.outIndex ∧ u.prevTxId = .ok l.txid) ↔
      (behind record rest).next.1 ≠ .error := by
  obtain ⟨id, hid, rfl⟩ : ∃ id : Bytes, id.length < 2 ^ 31 ∧ record = l.record id := by
    rcases mem_pair.mp h with rfl | rfl
    · exact ⟨_, by rw [Uint256.length_toBytes]; decide, l.output_data⟩
    · exact ⟨l.shortId, by rw [length_shortId]; decide, rfl⟩
  rw [ofBuffer_record_eq hid]
  constructor
  · rintro ⟨u, hu, -⟩ herr
    rw [if_pos herr] at hu
    cases hu
  · intro hnext
    rw [if_neg hnext]
    refine ⟨_, rfl, rfl, rfl, rfl, ?_⟩
    rcases mem_pair.mp h with heq | heq
    · exact prevTxId_record (congrArg (· ++ rest) heq)
    · exact prevTxId_shortRecord (congrArg (· ++ rest) heq) rfl

theorem returns_shortRecord_iff (hlen : (l.record l.shortId ++ rest).length < 2 ^ 31) :
    (∀ txid ix, GetCheapHash txid = l.cheapHash →
      MatchReturns (l.record l.shortId ++ rest) txid ix (decide (txid = l.txid ∧ ix = l.outIndex))) ↔
      l.NoStray (l.record l.shortId) rest := by
  have hown : (l.waitingAt l.outIndex).indexMatched := by
    rw [waitingAt]
    split_ifs with hzero
    · exact decide_eq_true hzero.symm
    · rfl
  constructor
  · intro h
    obtain ⟨txid, htxid, hchp⟩ := l.exists_ne_cheapHash
    obtain ⟨y, hy, -⟩ := (matchReturns_shortRecord_iff htxid hchp (.inr rfl) rest _).mp
      (h txid l.outIndex hchp)
    obtain ⟨x, hx⟩ := strayBody_ends htxid hchp (l.waiting_waitingAt _) hy
    refine ⟨x, hx, fun hstr => ?_⟩
    -- a stray id is matched together with the leaf's own ix
    obtain ⟨other, hoth, hchp', hends⟩ := exists_matchBody_ends hx hstr hlen
    obtain ⟨y, hy, hres⟩ := (matchReturns_shortRecord_iff hoth hchp' (.inr rfl) rest _).mp
      (h other l.outIndex hchp')
    obtain rfl := hy.unique (hends _ _ (l.waiting_waitingAt _))
    simp [hown, hoth] at hres
  · rintro ⟨x, hx, hstr⟩ txid ix hchp
    by_cases htxid : txid = l.txid
    · subst htxid
      exact l.matchReturns_shortRecord rest ix
    · rw [decide_eq_false fun hboth => htxid hboth.1]
      by_cases hix : l.outIndex = 0 ∨ ix = l.outIndex
      · exact (matchReturns_shortRecord_iff htxid hchp hix rest false).mpr
          (matchBody_ends_false htxid hchp (l.waiting_waitingAt ix) hx hstr)
      · obtain ⟨hzero, hix⟩ := not_or.mp hix
        exact matchReturns_shortRecord_index htxid hchp hzero hix rest

/-- Exactly when what follows is not refused, and the search behind the short record meets no id. -/
theorem selfContained_iff (l : Leaf) (rest : Bytes)
    (hlen : ∀ record ∈ l.records, (record ++ rest).length < 2 ^ 31) :
    l.SelfContained rest ↔ (∀ record ∈ l.records, (behind record rest).next.1 ≠ .error) ∧
      l.NoStray (Pruner.copyLeaf l.output l.txid) rest := by
  have hsh : Pruner.copyLeaf l.output l.txid ∈ l.records := mem_pair.mpr (.inr rfl)
  constructor
  · rintro ⟨hrd, hreturns⟩
    exact ⟨fun record hrec => (reads_iff hrec).mp (hrd record hrec),
      (returns_shortRecord_iff (hlen _ hsh)).mp (hreturns _ hsh)⟩
  · rintro ⟨hnext, hstr⟩
    refine ⟨fun record hrec => (reads_iff hrec).mpr (hnext record hrec), fun record hrec => ?_⟩
    rcases mem_pair.mp hrec with rfl | rfl
    · exact fun txid ix _ => ⟨_, ends_of_forFields (l.forFields_match_record rest txid ix), rfl⟩
    · exact (returns_shortRecord_iff (hlen _ hsh)).mpr hstr

/-- A leaf in front of two bytes that were never written. -/
theorem selfContained_zeros : (⟨5, 0, 1, 81, by decide, by decide, by decide⟩ : Leaf).SelfContained
      [0, 0] := by
  refine (selfContained_iff _ _ (by decide +kernel)).mpr ⟨by decide +kernel, ?_⟩
  refine ⟨.inl (), .more (next_eq_of_found (by decide +kernel)) (by decide +kernel) (.done ?_),
    by decide⟩
  decide +kernel

/-- Two copied leafs with one cheap hash: the first matches the outpoint of the second. And a byte
that starts no field makes a leaf unreadable. -/
theorem copyLeaf_matches_neighbour :
    let txid : Uint256 := 0x10000000000000005
    GetCheapHash txid = GetCheapHash 5 ∧
    MatchReturns (Pruner.copyLeaf (.create 5 0 1 81) 5 ++ Pruner.copyLeaf (.create txid 0 1 81)
      txid) txid 0 true ∧
    ofBuffer (GetCheapHash 5) (Pruner.copyLeaf (.create 5 0 1 81) 5 ++ [7]) =
      .error "Unparsable UTXO-record" := by
  refine ⟨by decide +kernel, ⟨.inr true, ends_of_forFields ?_, rfl⟩, ?_⟩
  · decide +kernel
  · decide +kernel

end Leaf

end FloweeHub.UODB
