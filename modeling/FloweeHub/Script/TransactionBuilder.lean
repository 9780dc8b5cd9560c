import FloweeHub.Mempool.ProofCreation
import FloweeHub.Validation.TxValidation
import Mathlib.Data.List.TakeDrop

/-! `TransactionBuilder` signs an input over a hash that it builds itself. What was pushed for the
inputs is in a list beside them; the abstract model is one list of inputs that carry it, and the
builder's two lists are its columns. After any calls each input is signed with what was pushed for
it, over the hash that the interpreter takes of the finished transaction. Keys, signatures and the
hash of the form without `SIGHASH_FORKID` are parameters. -/

namespace FloweeHub

open Lib LittleEndian Serialize Script List Option

/-- The transaction under construction. -/
structure MutableTransaction where
  nVersion : ℤ := 2
  vin : List TxIn := []
  vout : List TxOut := []
  nLockTime : ℕ := 0

variable (Hash : Bytes → Uint256) (legacy : Bytes → MutableTransaction → ℕ → ℕ → Uint256)
  {Key : Type} [Inhabited Key]

variable (txTo : MutableTransaction)

def GetPrevoutHash : Uint256 := Hash (txTo.vin.flatMap fun txin => txin.prevout.serialize)

def GetSequenceHash : Uint256 := Hash (txTo.vin.flatMap fun txin => encode 4 txin.nSequence)

def GetOutputsHash : Uint256 := Hash (txTo.vout.flatMap TxOut.serialize)

/-- What a signature is checked against; the form with `SIGHASH_FORKID` reads `vin[nIn]` unchecked.
-/
def SignatureHash (scriptCode : Bytes) (txTo : MutableTransaction) (nIn : ℕ) (amount : ℤ) (nHashType : ℕ)
    (flags : ScriptFlags) : Option Uint256 :=
  if nHashType &&& SIGHASH_FORKID ≠ 0 ∧ flags.enableSighashForkId then
    let all := nHashType &&& SIGHASH_ANYONECANPAY = 0
    let single := nHashType &&& 0x1f = SIGHASH_SINGLE
    let nothing := nHashType &&& 0x1f = SIGHASH_NONE
    let hashPrevouts := if all then GetPrevoutHash Hash txTo else 0
    let hashSequence := if all ∧ ¬ single ∧ ¬ nothing then GetSequenceHash Hash txTo else 0
    let hashOutputs :=
      if ¬ single ∧ ¬ nothing then GetOutputsHash Hash txTo
      else if single then (txTo.vout[nIn]?.map fun txout => Hash txout.serialize).getD 0
      else 0
    txTo.vin[nIn]?.map fun txin =>
      Hash (encodeInt 4 txTo.nVersion ++ hashPrevouts.toBytes ++ hashSequence.toBytes ++
        txin.prevout.serialize ++
        writeScript (Counted.ofList scriptCode) ++ encodeInt 8 amount ++ encode 4 txin.nSequence ++
        hashOutputs.toBytes ++ encode 4 txTo.nLockTime ++ encode 4 nHashType)
  else some (legacy scriptCode txTo nIn nHashType)

namespace TransactionBuilder

/-- The kinds of signature. -/
inductive SignatureType | ECDSA | Schnorr

/-- The inputs that are signed for. -/
inductive SignInputs | SignAllInputs | SignOnlyThisInput
deriving DecidableEq

/-- The outputs that are signed for. -/
inductive SignOutputs | SignAllOuputs | SignNoOutputs | SignSingleOutput

def SignOnlyThisInput : ℕ := 0x80
def SignNoOutputs : ℕ := 2
def SignSingleOutput : ℕ := 3

/-- What the builder keeps for an input. -/
structure SignInfo (Key : Type) [Inhabited Key] where
  hashType : UInt8 := 0
  amount : ℤ := 0
  privKey : Key := default
  prevOutScript : Bytes := []
  signatureType : SignatureType := .Schnorr

/-- The arguments of `pushInputSignature`. -/
structure Pushed (Key : Type) where
  privKey : Key
  prevOutScript : Bytes
  amount : ℤ
  type : SignatureType
  inputs : SignInputs
  outputs : SignOutputs

def hashType (inputs : SignInputs) (outputs : SignOutputs) : UInt8 :=
  (if inputs = .SignOnlyThisInput then 0xC0 else 0x40) +
    match outputs with
    | .SignAllOuputs => 1
    | .SignNoOutputs => 2
    | .SignSingleOutput => 3

def signInfoOf (p : Pushed Key) : SignInfo Key :=
  ⟨hashType p.inputs p.outputs, p.amount, p.privKey, p.prevOutScript, p.type⟩

/-- The builder; -1 is no input or output. -/
structure Builder (Key : Type) [Inhabited Key] where
  transaction : MutableTransaction := {}
  curInput : ℤ := -1
  curOutput : ℤ := -1
  signInfo : List (SignInfo Key) := []

/-- The calls of a builder. -/
inductive Call (Key : Type)
  | appendInput (txid : Uint256) (outputIndex : ℤ)
  | selectInput (index : ℤ)
  | pushInputSignature (p : Pushed Key)
  | deleteInput (index : ℤ)
  | appendOutput (amount : ℤ)
  | selectOutput (index : ℤ)
  | setOutputValue (value : ℤ)
  | pushOutputScript (script : Bytes)
  | deleteOutput (index : ℤ)

def newInput (txid : Uint256) (outputIndex : ℤ) : TxIn :=
  ⟨⟨txid, (outputIndex % 2 ^ 32).toNat⟩, [], Validation.SEQUENCE_FINAL⟩

/-- One call; behind a failed assert or an exception there is no result. The other calls that push
an output script end as `pushOutputScript` does. -/
def step (b : Builder Key) : Call Key → Option (Builder Key)
  | .appendInput txid outputIndex =>
    let pos := b.transaction.vin.length
    if pos > 1000 then none
    else some { b with
      transaction.vin := b.transaction.vin ++ [newInput txid outputIndex]
      signInfo := b.signInfo.takeD (pos + 1) {}
      curInput := pos }
  | .selectInput index =>
    if index < 0 then none else some { b with curInput := min (b.transaction.vin.length - 1) index }
  | .pushInputSignature p =>
    if 0 ≤ b.curInput ∧ b.curInput < b.transaction.vin.length then
      some { b with signInfo := b.signInfo.modify b.curInput.toNat fun _ => signInfoOf p }
    else none
  | .deleteInput index =>
    if 0 ≤ index ∧ index < b.transaction.vin.length ∧ index < b.signInfo.length then
      let vin := b.transaction.vin.eraseIdx index.toNat
      some { b with
        transaction.vin := vin
        signInfo := b.signInfo.eraseIdx index.toNat
        curInput := min (vin.length - 1) index }
    else none
  | .appendOutput amount =>
    let pos := b.transaction.vout.length
    if pos > 1000 then none
    else some { b with transaction.vout := b.transaction.vout ++ [⟨amount, []⟩], curOutput := pos }
  | .selectOutput index =>
    if index < 0 then none else some { b with curOutput := min (b.transaction.vout.length - 1) index }
  | .setOutputValue value =>
    if 0 ≤ value ∧ 0 ≤ b.curOutput ∧ b.curOutput < b.transaction.vout.length then
      some { b with transaction.vout := b.transaction.vout.modify b.curOutput.toNat ({ · with nValue := value }) }
    else none
  | .pushOutputScript script =>
    if 0 ≤ b.curOutput ∧ b.curOutput < b.transaction.vout.length then
      some { b with
        transaction.vout :=
          b.transaction.vout.modify b.curOutput.toNat ({ · with scriptPubKey := script }) }
    else none
  | .deleteOutput index =>
    if 0 ≤ index ∧ index < b.transaction.vout.length then
      let vout := b.transaction.vout.eraseIdx index.toNat
      some { b with transaction.vout := vout, curOutput := min (vout.length - 1) index }
    else none

/-- Signing, and the key that goes with it. -/
structure Keys (Key : Type) where
  sign : SignatureType → Key → Uint256 → Bytes
  GetPubKey : Key → Bytes

/-- The hash that `createTransaction` has signed for the input `txin` at `i`. -/
def digest (tx : MutableTransaction) (i : ℕ) (si : SignInfo Key) (txin : TxIn) : Uint256 :=
  let type := si.hashType.toNat
  let hashPrevouts :=
    if type &&& SignOnlyThisInput = 0 then Hash (tx.vin.flatMap fun txin => txin.prevout.serialize)
    else 0
  let hashSequence :=
    if type &&& SignOnlyThisInput = 0 ∧ type &&& 0x1f ≠ SignSingleOutput ∧
      type &&& 0x1f ≠ SignNoOutputs then
      Hash (tx.vin.flatMap fun txin => encode 4 txin.nSequence)
    else 0
  let hashOutputs :=
    if type &&& 0x1f ≠ SignSingleOutput ∧ type &&& 0x1f ≠ SignNoOutputs then
      Hash (tx.vout.flatMap TxOut.serialize)
    else if type &&& 0x1f = SignSingleOutput then
      match tx.vout[i]? with
      | some txout => Hash txout.serialize
      | none => 0
    else 0
  Hash (encodeInt 4 tx.nVersion ++ hashPrevouts.toBytes ++ hashSequence.toBytes ++
    txin.prevout.serialize ++
    writeScript (Counted.ofList si.prevOutScript) ++ encodeInt 8 si.amount ++ encode 4 txin.nSequence ++
    hashOutputs.toBytes ++ encode 4 tx.nLockTime ++ encode 4 type)

variable (keys : Keys Key)

def signed (tx : MutableTransaction) (i : ℕ) (si : SignInfo Key) (txin : TxIn) : TxIn :=
  if si.prevOutScript = [] then txin
  else
    let vchSig := keys.sign si.signatureType si.privKey (digest Hash tx i si txin) ++ [si.hashType]
    { txin with scriptSig := push vchSig ++ push (keys.GetPubKey si.privKey) }

/-- The loop of `createTransaction`, which writes each signature before the next hash is taken. -/
def signFrom (tx : MutableTransaction) (i : ℕ) : List (SignInfo Key) → MutableTransaction
  | [] => tx
  | si :: rest => signFrom { tx with vin := tx.vin.modify i (signed Hash keys tx i si) } (i + 1) rest

def createTransaction (b : Builder Key) : Option MutableTransaction :=
  if b.transaction.vin.length = b.signInfo.length then
    some (signFrom Hash keys b.transaction 0 b.signInfo) else none

/-- An input that carries what was pushed for it. -/
structure Entry (Key : Type) where
  txin : TxIn
  pushed : Option (Pushed Key) := none

def Entry.signInfo (e : Entry Key) : SignInfo Key := (e.pushed.map signInfoOf).getD {}

/-- The abstract model: entries, and which is selected. -/
structure Inputs (Key : Type) where
  entries : List (Entry Key) := []
  selected : ℤ := -1

/-- What a call that succeeds means for the inputs. -/
def Inputs.step (s : Inputs Key) : Call Key → Inputs Key
  | .appendInput txid outputIndex => ⟨s.entries ++ [⟨newInput txid outputIndex, none⟩], s.entries.length⟩
  | .selectInput index => { s with selected := min (s.entries.length - 1) index }
  | .pushInputSignature p =>
    { s with entries := s.entries.modify s.selected.toNat ({ · with pushed := some p }) }
  | .deleteInput index =>
    let rest := s.entries.eraseIdx index.toNat
    ⟨rest, min (rest.length - 1) index⟩
  | _ => s

/-- The builder's lists are the columns of the entries. -/
structure Columns (b : Builder Key) (s : Inputs Key) : Prop where
  vin : b.transaction.vin = s.entries.map Entry.txin
  signInfo : b.signInfo = s.entries.map Entry.signInfo
  selected : b.curInput = s.selected

variable {b b' : Builder Key} {s : Inputs Key} {calls : List (Call Key)}
  {tx : MutableTransaction} {i : ℕ} {si : SignInfo Key} {txin : TxIn} {e : Entry Key}
  {entries : List (Entry Key)} {α : Type}

theorem takeD_length_succ (l : List α) (a : α) : l.takeD (l.length + 1) a = l ++ [a] := by
  induction l with
  | nil => rfl
  | cons x l ih => exact congrArg (x :: ·) ih

theorem map_modify {β : Type} {l : List α} {f : α → α} (g : α → β) (k : β → β) (h : ∀ a, g (f a) = k (g a)) :
    (l.modify i f).map g = (l.map g).modify i k := by
  apply ext_getElem?
  intro j
  simp only [getElem?_map, getElem?_modify]
  cases l[j]? with
  | none => rfl
  | some a => simp [apply_ite g, h]

theorem Columns.step (h : Columns b s) {c : Call Key} (hb : step b c = some b') : Columns b' (s.step c) := by
  obtain ⟨hvin, hinfo, hsel⟩ := h
  cases c <;> simp only [TransactionBuilder.step, ite_none_left_eq_some, ite_none_right_eq_some,
    some.injEq] at hb <;> obtain ⟨-, rfl⟩ := hb
  case appendInput txid n =>
    constructor
    · simp [Inputs.step, hvin]
    · have hlen : b.transaction.vin.length = b.signInfo.length := by simp [hvin, hinfo]
      rw [hlen, takeD_length_succ, hinfo]
      simp [Inputs.step, Entry.signInfo]
    · simp [Inputs.step, hvin]
  case selectInput index => exact ⟨hvin, hinfo, by simp [Inputs.step, hvin]⟩
  case pushInputSignature p =>
    refine ⟨?_, ?_, hsel⟩
    · rw [Inputs.step, map_modify Entry.txin id, modify_id, hvin]
      exact fun _ => rfl
    · rw [Inputs.step, map_modify Entry.signInfo fun _ => signInfoOf p, hinfo, hsel]
      exact fun _ => rfl
  case deleteInput index =>
    constructor <;> simp [Inputs.step, hvin, hinfo, eraseIdx_map]
  all_goals exact ⟨hvin, hinfo, hsel⟩

/-- The builder's lists stay columns along any calls. -/
theorem columns_of_run (h : Columns b s) (hb : calls.foldlM TransactionBuilder.step b = some b') :
    Columns b' (calls.foldl Inputs.step s) := by
  induction calls generalizing b s with
  | nil =>
    obtain rfl : b = b' := by simpa using hb
    exact h
  | cons c calls ih =>
    obtain ⟨b1, hc, hrest⟩ := bind_eq_some_iff.mp hb
    exact ih (h.step hc) hrest

def parts (txin : TxIn) : OutPoint × ℕ := (txin.prevout, txin.nSequence)

/-- The hash does not depend on the signatures that are there already. -/
theorem digest_congr {vin : List TxIn} {txin' : TxIn} (h : vin.map parts = tx.vin.map parts)
    (htxin : parts txin' = parts txin) : digest Hash { tx with vin := vin } i si txin' =
      digest Hash tx i si txin := by
  have hprev := congrArg (flatMap fun t => t.1.serialize) h
  have hseq := congrArg (flatMap fun t => encode 4 t.2) h
  obtain ⟨hout, hnum⟩ := Prod.ext_iff.mp htxin
  simp only [flatMap_map, parts] at hprev hseq hout hnum
  simp only [digest, hprev, hseq, hout, hnum]

theorem parts_signed : parts (signed Hash keys tx i si txin) = parts txin := by
  unfold signed
  split_ifs
  all_goals rfl

/-- The inputs in front are done; each one behind them is signed for this transaction. -/
theorem signFrom_eq (done : List TxIn) (h : tx.vin = done ++ entries.map Entry.txin) :
    signFrom Hash keys tx done.length (entries.map Entry.signInfo) = { tx with
      vin := done ++ (entries.zipIdx done.length).map fun e =>
        signed Hash keys tx e.2 e.1.signInfo e.1.txin } := by
  induction entries generalizing tx done with
  | nil =>
    rw [map_nil, append_nil] at h
    rw [map_nil, signFrom, zipIdx_nil, map_nil, append_nil, ← h]
  | cons e todo ih =>
    let vin := done ++ [signed Hash keys tx done.length e.signInfo e.txin]
    have hvin : tx.vin.modify done.length (signed Hash keys tx done.length e.signInfo) =
        vin ++ todo.map Entry.txin := by
      simp [h, modify_eq_take_drop, vin]
    have hpts : (vin ++ todo.map Entry.txin).map parts = tx.vin.map parts := by
      simp [h, vin, parts_signed]
    have hsame : ∀ i si, signed Hash keys { tx with vin := vin ++ todo.map Entry.txin } i si =
        signed Hash keys tx i si := by
      intro i si
      funext t
      rw [signed, signed, digest_congr Hash hpts rfl]
    have hrest := @ih { tx with vin := vin ++ todo.map Entry.txin } vin rfl
    have hlen : vin.length = done.length + 1 := length_append
    simp only [hsame, hlen] at hrest
    rw [map_cons, signFrom, hvin, hrest, zipIdx_cons, map_cons, append_assoc]
    rfl

theorem signFrom_zero (h : tx.vin = entries.map Entry.txin) :
    signFrom Hash keys tx 0 (entries.map Entry.signInfo) = { tx with
      vin := entries.zipIdx.map fun e => signed Hash keys tx e.2 e.1.signInfo e.1.txin } :=
  signFrom_eq Hash keys [] h

theorem Entry.forkId (e : Entry Key) (h : e.signInfo.prevOutScript ≠ []) :
    e.signInfo.hashType.toNat &&& SIGHASH_FORKID ≠ 0 := by
  rcases e with ⟨txin, - | p⟩
  · exact absurd rfl h
  · change (hashType p.inputs p.outputs).toNat &&& SIGHASH_FORKID ≠ 0
    cases p.inputs <;> cases p.outputs <;> decide

theorem SignatureHash_eq {flags : ScriptFlags} (hflg : flags.enableSighashForkId)
    (hfork : si.hashType.toNat &&& SIGHASH_FORKID ≠ 0) (htxin : tx.vin[i]? = some txin) :
    SignatureHash Hash legacy si.prevOutScript tx i si.amount si.hashType.toNat flags =
      some (digest Hash tx i si txin) := by
  rw [SignatureHash, if_pos ⟨hfork, hflg⟩, htxin]
  unfold digest
  cases tx.vout[i]? with
  | none => rfl
  | some txout => rfl

/-- Without a script to spend the input is as it was appended, otherwise its own script holds a
signature of what the interpreter checks it against. -/
def Signed (final : MutableTransaction) (i : ℕ) (e : Entry Key) : Prop :=
  match e.pushed with
  | none => final.vin[i]? = some e.txin
  | some p =>
    if p.prevOutScript = [] then final.vin[i]? = some e.txin
    else ∀ flags : ScriptFlags, flags.enableSighashForkId → ∃ hash,
      SignatureHash Hash legacy p.prevOutScript final i p.amount (hashType p.inputs p.outputs).toNat
        flags = some hash ∧ final.vin[i]? = some { e.txin with
          scriptSig := push (keys.sign p.type p.privKey hash ++ [hashType p.inputs p.outputs]) ++
            push (keys.GetPubKey p.privKey) }

theorem signed_of_getElem? (h : tx.vin = entries.map Entry.txin) (he : entries[i]? = some e) :
    Signed Hash legacy keys (signFrom Hash keys tx 0 (entries.map Entry.signInfo)) i e := by
  rw [signFrom_zero Hash keys h]
  set vin := entries.zipIdx.map fun e => signed Hash keys tx e.2 e.1.signInfo e.1.txin with hvin
  have hget : vin[i]? = some (signed Hash keys tx i e.signInfo e.txin) := by simp [hvin, he]
  have hpts : vin.map parts = tx.vin.map parts := by
    apply ext_getElem?
    intro j
    simp [hvin, h, Function.comp_def, parts_signed]
  rcases e with ⟨txin, - | p⟩
  · rw [Signed, hget]
    rfl
  · replace hget : vin[i]? = some (signed Hash keys tx i (signInfoOf p) txin) := hget
    rw [Signed]
    dsimp only
    split_ifs with hs
    · rw [hget, signed, if_pos (show (signInfoOf p).prevOutScript = [] from hs)]
    · intro flags hflg
      refine ⟨digest Hash tx i (signInfoOf p) txin, ?_, ?_⟩
      · rw [← digest_congr Hash hpts (parts_signed Hash keys)]
        exact @SignatureHash_eq Hash legacy Key _ { tx with vin := vin } i (signInfoOf p) _ _ hflg
          (Entry.forkId ⟨txin, some p⟩ hs) hget
      · rw [hget, signed, if_neg (show (signInfoOf p).prevOutScript ≠ [] from hs)]
        rfl

/-- `createTransaction` signs each input over the hash that the interpreter takes in the end. -/
theorem signed_of_calls (h : calls.foldlM step {} = some b) :
    ∃ final, createTransaction Hash keys b = some final ∧
      final.vin.length = (calls.foldl Inputs.step {}).entries.length ∧
      ∀ i e, (calls.foldl Inputs.step {}).entries[i]? = some e → Signed Hash legacy keys final i e := by
  have hcols : Columns ({} : Builder Key) {} := ⟨rfl, rfl, rfl⟩
  obtain ⟨hvin, hinfo, -⟩ := columns_of_run hcols h
  have hlen : b.transaction.vin.length = b.signInfo.length := by rw [hvin, hinfo, length_map, length_map]
  refine ⟨_, if_pos hlen, ?_⟩
  rw [hinfo]
  constructor
  · simp [signFrom_zero Hash keys hvin]
  · intro i e he
    exact signed_of_getElem? Hash legacy keys hvin he

def alone : Pushed Unit := ⟨(), [0], 5, .Schnorr, .SignOnlyThisInput, .SignSingleOutput⟩

/-- The second input takes the place of the first, and is signed alone and without an output. -/
theorem signed_of_calls_moved : ∃ b final,
    [.appendInput 1 0, .appendInput 2 7, .deleteInput 0, .pushInputSignature alone].foldlM step
    {} = some b ∧ createTransaction (fun _ => 0) ⟨fun _ _ _ => [], fun _ => []⟩ b = some final ∧
    Signed (fun _ => 0) (fun _ _ _ _ => 0) ⟨fun _ _ _ => [], fun _ => []⟩ final 0 ⟨newInput 2 7,
      some alone⟩ := by
  obtain ⟨b, hb⟩ : ∃ b, [.appendInput 1 0, .appendInput 2 7, .deleteInput 0,
    .pushInputSignature alone].foldlM step {} = some b := ⟨_, rfl⟩
  obtain ⟨final, hfin, -, h⟩ := signed_of_calls (fun _ => 0) (fun _ _ _ _ => 0) ⟨fun _ _ _ => [],
    fun _ => []⟩ hb
  exact ⟨b, final, hb, hfin, h 0 _ rfl⟩

end TransactionBuilder

end FloweeHub
