import FloweeHub.Streaming.RoundTrip
import FloweeHub.Utxo.UnspentOutputDatabase

/-! The API calls that list unspent outputs. `buildReply` does not look at the room that
`calculateMessageSize` reserved; a missing output behind the first entry takes two bytes where one
is counted. Proved is which replies fit. Finding a transaction by its place is a parameter. -/

namespace FloweeHub.Api.UtxoFetcher

open Streaming List Field Option

abbrev Separator : ℕ := 0
abbrev TxId : ℕ := 4
abbrev Amount : ℕ := 6
abbrev BlockHeight : ℕ := 7
abbrev OffsetInBlock : ℕ := 8
abbrev OutIndex : ℕ := 21
abbrev OutputScript : ℕ := 23
abbrev UnspentState : ℕ := 26

/-- The variables of the loop over the request. -/
structure Request where
  txid : Uint256 := 0
  blockHeight : ℤ := -1
  offsetInBlock : ℤ := 0
  output : ℤ := 0
  utxos : List (Option UnspentOutput) := []

section Reading

variable (lookup : ℤ → ℤ → Except String Uint256) (find : Uint256 → ℤ → Option UnspentOutput)

/-- The end of an entry: the output it asks for. -/
def fetch (r : Request) : Except String (Option UnspentOutput) := do
  let txid ← if r.txid = 0 then lookup r.blockHeight r.offsetInBlock else .ok r.txid
  if txid = 0 then .error "assert" else .ok (find txid r.output)

def readField (p : MessageParser) (r : Request) : Request ⊕ String :=
  if p.tag = TxId then .inl { r with txid := p.uint256Data }
  else if p.tag = BlockHeight then .inl { r with blockHeight := p.intData }
  else if p.tag = OffsetInBlock then .inl { r with offsetInBlock := p.intData }
  else if p.tag = OutIndex then
    if p.isInt then .inl { r with output := p.intData } else .inr "index wasn't number"
  else if p.tag = Separator then
    match fetch lookup find r with
    | .ok out => .inl { utxos := r.utxos ++ [out] }
    | .error e => .inr e
  else .inl r

/-- The first half of `calculateMessageSize`, which fills `m_utxos`. -/
def readRequest (body : Bytes) : Except String (List (Option UnspentOutput)) :=
  match (MessageParser.forFields (readField lookup find) body {}).2 with
  | .inr e => .error e
  | .inl r => (fetch lookup find r).map fun out => r.utxos ++ [out]

end Reading

/-- The part of an output that a verbose reply adds. -/
structure UnspentOutputData where
  outputValue : ℕ
  outputScript : Bytes

variable (uod : UnspentOutput → UnspentOutputData) (verbose : Bool)

/-- The sum of `calculateMessageSize`, before it is cut to an `int`. -/
def neededSize (utxos : List (Option UnspentOutput)) : ℕ :=
  let validCount := utxos.countP isSome
  let size := utxos.length - validCount + validCount * 20
  bif verbose then size + (utxos.map fun u => u.elim 0 fun u =>
    10 + ((uod u).outputScript.length + 3)).sum else size

def entryFields (u : Option UnspentOutput) : List Field :=
  .bool UnspentState u.isSome :: u.elim [] fun u =>
    [.int BlockHeight u.blockHeight, .int OffsetInBlock u.offsetInBlock, .int OutIndex u.outIndex] ++
      bif verbose then [.long Amount (uod u).outputValue,
        .bytes OutputScript (uod u).outputScript] else []

def buildReply : List (Option UnspentOutput) → List Field
  | [] => []
  | u :: utxos =>
    entryFields uod verbose u ++ utxos.flatMap fun u => .bool Separator true :: entryFields uod verbose u

/-- The bytes of the numbers of an output beyond one each. -/
def extra (u : Option UnspentOutput) : ℕ := u.elim 0 fun u =>
  extraBytes u.blockHeight.natAbs + extraBytes u.offsetInBlock.natAbs + extraBytes u.outIndex.natAbs +
    bif verbose then extraBytes (uod u).outputValue + extraBytes (uod u).outputScript.length else 0

/-- The bytes of the entries, without the separators. -/
def entriesCost (utxos : List (Option UnspentOutput)) : ℕ :=
  ((utxos.flatMap (entryFields uod verbose)).map cost).sum

variable (u : Option UnspentOutput) (utxos : List (Option UnspentOutput))

/-- A found output leaves 13 or 22 bytes beyond one for each number; the sum is at most thrice the
need. -/
theorem entriesCost_spec :
    entriesCost uod verbose utxos + (bif verbose then 22 else 13) * utxos.countP isSome =
      neededSize uod verbose utxos + (utxos.map (extra uod verbose)).sum ∧
    neededSize uod verbose utxos ≤ 3 * entriesCost uod verbose utxos := by
  induction utxos with
  | nil => cases verbose <;> exact ⟨rfl, le_rfl⟩
  | cons u utxos ih =>
    have hle := countP_le_length (p := isSome) (l := utxos)
    cases u <;> cases verbose <;> simp [neededSize, entriesCost, entryFields, extra, cost]
      at ih ⊢ <;> omega

theorem cost_separated :
    ((utxos.flatMap fun u => .bool Separator true :: entryFields uod verbose u).map cost).sum =
      entriesCost uod verbose utxos + utxos.length := by
  induction utxos with
  | nil => rfl
  | cons u utxos ih =>
    simp only [entriesCost, flatMap_cons, map_append, map_cons, sum_append, sum_cons, ih, cost,
      length_cons]
    omega

theorem tag_lt_of_entry : ∀ f ∈ entryFields uod verbose u, f.tag < 31 := by
  cases u <;> cases verbose <;> simp [entryFields, Field.tag] <;> decide

theorem length_buildReply : ((buildReply uod verbose (u :: utxos)).flatMap write).length =
    entriesCost uod verbose (u :: utxos) + utxos.length := by
  have htag : ∀ f ∈ buildReply uod verbose (u :: utxos), f.tag < 31 := by
    simp only [buildReply, mem_append, mem_flatMap, mem_cons]
    rintro f (hf | ⟨v, -, rfl | hf⟩)
    · exact tag_lt_of_entry uod verbose u f hf
    · decide
    · exact tag_lt_of_entry uod verbose v f hf
  rw [length_flatMap_write htag, buildReply, map_append, sum_append, cost_separated, entriesCost,
    entriesCost, flatMap_cons, map_append, sum_append]
  omega

theorem ne_nil_of_readRequest {lookup : ℤ → ℤ → Except String Uint256}
    {find : Uint256 → ℤ → Option UnspentOutput} {body : Bytes} :
    readRequest lookup find body ≠ .ok [] := by
  intro h
  unfold readRequest at h
  split at h
  · cases h
  · next r _ => cases hout : fetch lookup find r <;> simp [hout, Except.map] at h

/-- The reply fits exactly when the sum is an `int` and the numbers found are short enough. -/
theorem reply_fits_iff {lookup : ℤ → ℤ → Except String Uint256}
    {find : Uint256 → ℤ → Option UnspentOutput} {body : Bytes}
    (h : readRequest lookup find body = .ok utxos) :
    ((buildReply uod verbose utxos).flatMap write).length ≤ toInt32 (neededSize uod verbose utxos) ↔
      neededSize uod verbose utxos < 2 ^ 31 ∧ utxos.length + (utxos.map (extra uod verbose)).sum ≤
          1 + (bif verbose then 22 else 13) * utxos.countP isSome := by
  cases utxos with
  | nil => exact absurd h ne_nil_of_readRequest
  | cons u utxos =>
    obtain ⟨hsum, hle⟩ := entriesCost_spec uod verbose (u :: utxos)
    rw [length_buildReply, length_cons]
    by_cases hint : neededSize uod verbose (u :: utxos) < 2 ^ 31
    · rw [toInt32_of_fits (by omega) (by omega)]
      omega
    · rw [toInt32, Int.bmod_def]
      split <;> omega

def txIdEntry (first : UInt8) : Bytes := 0x23 :: 32 :: first :: replicate 31 0

/-- Two entries, each with the id of a transaction, for its first output. -/
def twoEntries : Bytes := txIdEntry 1 ++ 4 :: txIdEntry 2

theorem reply_fits_two_found :
    ((buildReply (fun _ => ⟨5000, [0x51]⟩) true [some ⟨1, 0, 1, 81⟩, some ⟨2, 0, 1, 281⟩]).flatMap
      write).length ≤
      toInt32 (neededSize (fun _ => ⟨5000, [0x51]⟩) true [some ⟨1, 0, 1, 81⟩, some ⟨2, 0, 1, 281⟩]) :=
  have hread : readRequest (fun _ _ => .error "no such block")
      (fun txid output => some ⟨txid, output, 1, if txid = 1 then 81 else 281⟩) twoEntries =
      .ok [some ⟨1, 0, 1, 81⟩, some ⟨2, 0, 1, 281⟩] := by decide +kernel
  (reply_fits_iff _ true _ hread).mpr (by decide)

/-- Where neither is unspent, two bytes are reserved and three are written. -/
theorem two_missing_overflow :
    readRequest (fun _ _ => .error "no such block") (fun _ _ => none) twoEntries = .ok [none, none] ∧
      ∀ uod verbose, neededSize uod verbose [none, none] = 2 ∧
        ((buildReply uod verbose [none, none]).flatMap write).length = 3 := by
  refine ⟨by decide +kernel, fun uod verbose => ⟨?_, ?_⟩⟩
  · cases verbose <;> rfl
  · cases verbose <;> rfl

end FloweeHub.Api.UtxoFetcher
