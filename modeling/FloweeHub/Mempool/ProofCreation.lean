import FloweeHub.Mempool.DoubleSpendProof
import FloweeHub.Primitives.Compare
import FloweeHub.Script.GetOp

/-! Making a double spend proof from two transactions, and validating one against a mempool. The
hash function and the script interpreter are parameters. -/

namespace FloweeHub

open Lib Serialize Script

def SIGHASH_NONE : ℕ := 2
def SIGHASH_SINGLE : ℕ := 3
def SIGHASH_FORKID : ℕ := 0x40
def SIGHASH_ANYONECANPAY : ℕ := 0x80

def OutPoint.serialize (o : OutPoint) : Bytes := o.hash.toBytes ++ LittleEndian.encode 4 o.n

def TxOut.serialize (o : TxOut) : Bytes :=
  LittleEndian.encodeInt 8 o.nValue ++ writeScript (Counted.ofList o.scriptPubKey)

namespace DoubleSpendProof

variable (Hash : Bytes → Uint256)

def hashTypeOf (sig : Bytes) : ℕ := (sig.getLast?.getD 0).toNat

def getP2PKHSignature (script : Bytes) : Bytes := (GetOp script).data

/-- The hashes over the parts of a transaction that a hash type covers. -/
def hashTx (spender : Spender) (tx : Transaction) (inputIndex : ℕ) : Spender :=
  let hashType := hashTypeOf (spender.pushData.headD [])
  let anyone := hashType &&& SIGHASH_ANYONECANPAY ≠ 0
  let single := hashType &&& 0x1f = SIGHASH_SINGLE
  let nothing := hashType &&& 0x1f = SIGHASH_NONE
  { spender with
    hashPrevOutputs :=
      if ¬ anyone then Hash (tx.vin.flatMap fun txin => txin.prevout.serialize)
      else spender.hashPrevOutputs
    hashSequence :=
      if ¬ anyone ∧ ¬ single ∧ ¬ nothing then Hash (tx.vin.flatMap fun txin =>
        LittleEndian.encode 4 txin.nSequence)
      else spender.hashSequence
    hashOutputs :=
      if ¬ single ∧ ¬ nothing then Hash (tx.vout.flatMap TxOut.serialize)
      else if single then
        match tx.vout[inputIndex]? with
        | some txout => Hash txout.serialize
        | none => spender.hashOutputs
      else spender.hashOutputs }

/-- The first input of the first transaction that the second one spends too, and its places. -/
def sharedInput (vin₂ : List TxIn) : List TxIn → ℕ → Option (ℕ × TxIn × ℕ × TxIn)
  | [], _ => none
  | in1 :: vin₁, inputIndex1 =>
    match vin₂.zipIdx.find? fun e => in1.prevout = e.1.prevout with
    | some (in2, inputIndex2) => some (inputIndex1, in1, inputIndex2, in2)
    | none => sharedInput vin₂ vin₁ (inputIndex1 + 1)

variable (p : DoubleSpendProof)

def isEmpty : Bool := p.prevOutIndex = -1 ∨ p.prevTxId = 0

def MaxPushDataSize : ℕ := 520

def checkSanityOrThrow : Except String Unit :=
  if p.isEmpty then .error "DSProof is empty"
  else if p.spender1.pushData.length ≠ 1 then .error "DSProof must contain exactly 1 pushData"
  else if MaxPushDataSize < (p.spender1.pushData.headD []).length then
    .error "DSProof script size limit exceeded"
  else if p.spender2.pushData.length ≠ 1 then .error "DSProof must contain exactly 1 pushData"
  else if MaxPushDataSize < (p.spender2.pushData.headD []).length then
    .error "DSProof script size limit exceeded"
  else if p.spender1.pushData.headD [] = p.spender2.pushData.headD [] then
    .error "DSProof noticed both sides are the same"
  else .ok ()

def order (s₁ s₂ : Spender) : Ordering :=
  match s₁.hashOutputs.Compare s₂.hashOutputs with
  | .eq => s₁.hashPrevOutputs.Compare s₂.hashPrevOutputs
  | diff => diff

/-- A spender with the data of a transaction and its input, and no hashes yet. -/
def spenderOf (tx : Transaction) (txin : TxIn) : Spender where
  txVersion := (tx.nVersion % 2 ^ 32).toNat
  outSequence := txin.nSequence
  lockTime := tx.nLockTime
  hashPrevOutputs := 0
  hashSequence := 0
  hashOutputs := 0
  pushData := [getP2PKHSignature txin.scriptSig]

/-- The outer loop has moved on when the hashes are made, so the first index is one too large. -/
def create (t₁ t₂ : Transaction) : Except String DoubleSpendProof :=
  match sharedInput t₂.vin t₁.vin 0 with
  | none => .error "Transactions do not double spend each other"
  | some (inputIndex1, in1, inputIndex2, in2) =>
    let s₁ := spenderOf t₁ in1
    let s₂ := spenderOf t₂ in2
    let sig₁ := getP2PKHSignature in1.scriptSig
    let sig₂ := getP2PKHSignature in2.scriptSig
    if sig₁ = [] ∨ sig₂ = [] then .error "scriptSig has no signature"
    else if hashTypeOf sig₁ &&& SIGHASH_FORKID = 0 then .error "Tx1 Not a Bitcoin Cash P2PKH transaction"
    else if hashTypeOf sig₂ &&& SIGHASH_FORKID = 0 then .error "Tx2 Not a Bitcoin Cash P2PKH transaction"
    else
      let s₁ := hashTx Hash s₁ t₁ (inputIndex1 + 1)
      let s₂ := hashTx Hash s₂ t₂ inputIndex2
      let answer : DoubleSpendProof :=
        if order s₁ s₂ = .gt then ⟨in1.prevout.hash, Int32.ofNat in1.prevout.n, s₂, s₁⟩
        else ⟨in1.prevout.hash, Int32.ofNat in1.prevout.n, s₁, s₂⟩
      (answer.checkSanityOrThrow).map fun _ => answer

/-- The answers of `validate`. -/
inductive Validity
  | Valid
  | MissingTransaction
  | MissingUTXO
  | Invalid
deriving DecidableEq, Repr

/-- A transaction by its id, the one that spends an output, and an output of the UTXO. -/
structure Lookups where
  tx : Uint256 → Option Transaction
  spending : OutPoint → Option Transaction
  utxo : OutPoint → Option TxOut

def wellFormed : Bool :=
  p.prevTxId ≠ 0 ∧ 0 ≤ p.prevOutIndex ∧ p.spender1.pushData.headD [] ≠ [] ∧
    p.spender2.pushData.headD [] ≠ [] ∧
    p.checkSanityOrThrow.isOk ∧ order p.spender1 p.spender2 ≠ .gt

/-- `Tx::Iterator` throws at a count or a script length above this. -/
def MAX_TOKEN : ℕ := 0xFFFF

/-- What `Tx::output` reads up to the end of the output is tokenized without an exception. -/
def OutputTokenized (tx : Transaction) (index : ℕ) : Prop :=
  tx.vin.length ≤ MAX_TOKEN ∧ (∀ txin ∈ tx.vin, txin.scriptSig.length ≤ MAX_TOKEN) ∧
    tx.vout.length ≤ MAX_TOKEN ∧
    ∀ txout ∈ tx.vout.take (index + 1), txout.scriptPubKey.length ≤ MAX_TOKEN

instance (tx : Transaction) (index : ℕ) : Decidable (OutputTokenized tx index) :=
  inferInstanceAs (Decidable (_ ∧ _))

/-- The output that is spent; one that the transaction does not have is worth -1. There is no result
if the tokenizer throws. -/
def spentOutput (pool : Lookups) (p : DoubleSpendProof) : Option (Except Validity TxOut) :=
  match pool.tx p.prevTxId with
  | some prevTx =>
    if OutputTokenized prevTx p.prevOut.n then
      let output := prevTx.vout.getD p.prevOut.n ⟨-1, []⟩
      some (if output.nValue < 0 ∨ output.scriptPubKey = [] then .error .Invalid else .ok output)
    else none
  | none =>
    match pool.utxo p.prevOut with
    | some output => some (.ok output)
    | none => some (.error .MissingUTXO)

def spentBy (p : DoubleSpendProof) (txin : TxIn) : Bool :=
  txin.prevout.hash = p.prevTxId ∧ Int32.ofNat txin.prevout.n = p.prevOutIndex

/-- The loop over the spending transaction meets no exception: it ends at the script of the input, or
behind the number of outputs. -/
def KeyTokenized (p : DoubleSpendProof) (tx : Transaction) : Prop :=
  tx.vin.length ≤ MAX_TOKEN ∧
    (∀ txin ∈ tx.vin.take (tx.vin.findIdx p.spentBy + 1), txin.scriptSig.length ≤ MAX_TOKEN) ∧
    ((∀ txin ∈ tx.vin, ¬ p.spentBy txin) → tx.vout.length ≤ MAX_TOKEN)

instance (p : DoubleSpendProof) (tx : Transaction) : Decidable (p.KeyTokenized tx) :=
  inferInstanceAs (Decidable (_ ∧ _ ∧ (_ → _)))

/-- The data of the second instruction in the script of the input that spends the output. -/
def pubkeyIn (p : DoubleSpendProof) (tx : Transaction) : Bytes :=
  match tx.vin.find? p.spentBy with
  | some txin => (GetOp (GetOp txin.scriptSig).rest).data
  | none => []

/-- `Script::verify` for a spender, with the amount, the input and the output script. -/
abbrev Verify := DoubleSpendProof → Spender → ℤ → Bytes → Bytes → Bool

/-- There is no result if the tokenizer throws or the assertion on the public key fails. -/
def validate (verify : Verify) (pool : Lookups) (p : DoubleSpendProof) : Option Validity :=
  if ¬ p.wellFormed then some .Invalid
  else
    match spentOutput pool p with
    | none => none
    | some (.error rc) => some rc
    | some (.ok output) =>
      match pool.spending p.prevOut with
      | none => some .MissingTransaction
      | some tx =>
        let pubkey := p.pubkeyIn tx
        if ¬ p.KeyTokenized tx ∨ pubkey = [] then none
        else
          let passes (s : Spender) : Bool :=
            verify p s output.nValue (push (s.pushData.headD []) ++ push pubkey) output.scriptPubKey
          some (if passes p.spender1 ∧ passes p.spender2 then .Valid else .Invalid)

/-! ### What a proof is validated with -/

variable {pool : Lookups} {p : DoubleSpendProof}

/-- The output that is spent is known and usable. -/
def FindsOutput (pool : Lookups) (p : DoubleSpendProof) : Prop :=
  ∃ output, spentOutput pool p = some (.ok output)

/-- The transactions that are read hold nothing too long for the tokenizer, and a proof that gets as
far as the key meets a spending input with a second push. -/
def HasKey (pool : Lookups) (p : DoubleSpendProof) : Prop :=
  p.wellFormed → (∀ prevTx, pool.tx p.prevTxId = some prevTx → OutputTokenized prevTx p.prevOut.n) ∧
    (p.FindsOutput pool → ∀ tx, pool.spending p.prevOut = some tx → p.KeyTokenized tx ∧
      p.pubkeyIn tx ≠ [])

/-- The transaction with the output is in the mempool, or the output is in the UTXO. -/
def OutputKnown (pool : Lookups) (p : DoubleSpendProof) : Prop :=
  (pool.tx p.prevTxId).isSome ∨ (pool.utxo p.prevOut).isSome

theorem spentOutput_isSome_iff : (spentOutput pool p).isSome ↔
    ∀ prevTx, pool.tx p.prevTxId = some prevTx → OutputTokenized prevTx p.prevOut.n := by
  unfold spentOutput
  cases htx : pool.tx p.prevTxId with
  | some prevTx => by_cases htok : OutputTokenized prevTx p.prevOut.n <;> simp [htok]
  | none => cases hutxo : pool.utxo p.prevOut <;> simp

theorem spentOutput_error {rc : Validity} (h : spentOutput pool p = some (.error rc)) :
    rc = .Invalid ∧ OutputKnown pool p ∨ rc = .MissingUTXO ∧ ¬ OutputKnown pool p := by
  unfold spentOutput at h
  unfold OutputKnown
  cases htx : pool.tx p.prevTxId with
  | some prevTx =>
    rw [htx] at h
    dsimp only at h
    refine .inl ⟨?_, .inl rfl⟩
    split at h
    · split at h
      · exact (Except.error.inj (Option.some.inj h)).symm
      · cases h
    · cases h
  | none =>
    rw [htx] at h
    dsimp only at h
    split at h
    · cases h
    · rename_i hnone
      exact .inr ⟨(Except.error.inj (Option.some.inj h)).symm, by simp [hnone]⟩

theorem FindsOutput.outputKnown (h : p.FindsOutput pool) : OutputKnown pool p := by
  obtain ⟨output, h⟩ := h
  by_contra hno
  obtain ⟨htx, hutxo⟩ := not_or.mp hno
  rw [spentOutput, Option.not_isSome_iff_eq_none.mp htx] at h
  dsimp only at h
  rw [Option.not_isSome_iff_eq_none.mp hutxo] at h
  cases h

variable (verify : Verify)

theorem validate_isSome_iff : (p.validate verify pool).isSome ↔ p.HasKey pool := by
  unfold validate HasKey FindsOutput
  by_cases hwell : p.wellFormed
  · rw [← spentOutput_isSome_iff]
    cases hspt : spentOutput pool p with
    | none => simp [hwell]
    | some res =>
      cases res with
      | error rc => simp [hwell]
      | ok output =>
        cases htx : pool.spending p.prevOut with
        | none => simp [hwell]
        | some tx => by_cases hkey : p.KeyTokenized tx ∧ p.pubkeyIn tx ≠ [] <;> simp_all
  · simp [hwell]

/-- With a spending transaction, the two other results are left for an unknown output only. -/
theorem validate_decides_iff {tx : Transaction} (hspending : pool.spending p.prevOut = some tx) :
    p.validate verify pool = some .Valid ∨ p.validate verify pool = some .Invalid ↔
      p.HasKey pool ∧ (p.wellFormed → p.OutputKnown pool) := by
  rw [← validate_isSome_iff verify, validate]
  by_cases hwell : p.wellFormed
  · rw [if_neg (not_not.mpr hwell)]
    cases hspt : spentOutput pool p with
    | none => simp
    | some res =>
      cases res with
      | error rc =>
        rcases spentOutput_error hspt with ⟨rfl, hkn⟩ | ⟨rfl, hno⟩
        · simp [hkn]
        · simp [hwell, hno]
      | ok output =>
        have hkn := FindsOutput.outputKnown ⟨output, hspt⟩
        dsimp only
        rw [hspending]
        dsimp only
        split_ifs <;> simp [hkn]
  · simp [hwell]

end DoubleSpendProof

end FloweeHub
