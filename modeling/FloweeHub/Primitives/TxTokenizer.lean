import FloweeHub.Primitives.RawBlock

/-! The second reader of transactions: `TxTokenizer`, which steps from one part to the next and
knows no other end than that of its buffer. It throws at a count or script length above `0xFFFF`. -/

namespace FloweeHub

open Lib Lib.Guards Serialize LittleEndian RawTxOut List Nat Option

/-- The parts of a transaction. -/
inductive Component
  | TxVersion
  | PrevTxHash
  | PrevTxIndex
  | TxInScript
  | Sequence
  | OutputValue
  | OutputScript
  | LockTime
  | End
deriving DecidableEq, Repr

/-- Positions are relative to the start of the buffer. -/
structure TxTokenizer where
  txStart : Option ℕ
  currentTokenStart : ℕ
  currentTokenEnd : ℕ
  numInputsLeft : ℤ
  numOutputsLeft : ℤ
  tag : Component
deriving DecidableEq, Repr

namespace TxTokenizer

variable {pos : ℕ}

def readCompactSizeSize (b : UInt8) : ℕ :=
  if b.toNat < 253 then 1 else if b.toNat = 253 then 3 else if b.toNat = 254 then 5 else 9

/-- `TxTokenizer(block, offsetInBlock)`: an offset of zero stands for the first transaction. -/
def ofBlock (data : Bytes) (offsetInBlock : ℕ) : TxTokenizer :=
  let pos := if offsetInBlock = 0 then 80 + readCompactSizeSize (data.getD 80 0) else offsetInBlock
  ⟨none, pos, pos, -1, -1, .End⟩

theorem readCompactSizeSize_write {data rest : Bytes} {n : ℕ}
    (h : data.drop pos = WriteCompactSize n ++ rest) :
    readCompactSizeSize (data.getD pos 0) = (WriteCompactSize n).length := by
  have hfst : data.getD pos 0 = (WriteCompactSize n ++ rest).getD 0 0 := by
    rw [← h, getD_eq_getElem?_getD, getD_eq_getElem?_getD, getElem?_drop, add_zero]
  rw [hfst]
  unfold WriteCompactSize
  split_ifs with h1 h2 h3
  · have hbyte : (UInt8.ofNat (n % 256)).toNat = n := by
      rw [UInt8.toNat_ofNat']
      omega
    simp [encode, readCompactSizeSize, hbyte, h1]
  all_goals simp [encode, readCompactSizeSize]

variable (data : Bytes)

def readCompactSize (pos : ℕ) : Except String (ℕ × ℕ) := compactSizeAt 0 data pos

variable (t : TxTokenizer)

/-- A count or a script length; the token starts behind it. -/
def readCount : Except String (ℕ × TxTokenizer) :=
  (readCompactSize data t.currentTokenEnd).bind fun r =>
    if 0xFFFF < r.1 then .error "Tx invalid"
    else .ok (r.1, { t with currentTokenStart := r.2, currentTokenEnd := r.2 })

/-- The next `size` bytes are a token; `checkSpaceForTag`. -/
def token (size : ℕ) (tag : Component) : Except String TxTokenizer :=
  if data.length < t.currentTokenEnd + size then .error "Tx data missing"
  else .ok { t with currentTokenEnd := t.currentTokenEnd + size, tag := tag }

/-- The part of `next` that depends on the tag only. -/
def nextInside : Except String TxTokenizer :=
  match t.tag with
  | .Sequence =>
    let t := { t with numInputsLeft := t.numInputsLeft - 1 }
    if (0 : ℤ) < t.numInputsLeft then t.token data 32 .PrevTxHash
    else (t.readCount data).bind fun r => { r.2 with numOutputsLeft := r.1 }.token data 8 .OutputValue
  | .PrevTxHash => t.token data 4 .PrevTxIndex
  | .PrevTxIndex => (t.readCount data).bind fun r => r.2.token data r.1 .TxInScript
  | .TxInScript => t.token data 4 .Sequence
  | .OutputScript =>
    let t := { t with numOutputsLeft := t.numOutputsLeft - 1 }
    if (0 : ℤ) < t.numOutputsLeft then t.token data 8 .OutputValue else t.token data 4 .LockTime
  | .OutputValue => (t.readCount data).bind fun r => r.2.token data r.1 .OutputScript
  | .LockTime => .ok { t with tag := .End }
  -- the source asserts that this is not reached
  | .TxVersion | .End => .ok t

/-- `TxTokenizer::next`; the number of inputs follows the version. -/
def next : Except String TxTokenizer :=
  if data.length ≤ t.currentTokenEnd + 1 then .ok { t with tag := .End }
  else
    let t := { t with currentTokenStart := t.currentTokenEnd }
    if some t.currentTokenStart = t.txStart ∨ t.tag = .End then
      { t with txStart := some t.currentTokenStart }.token data 4 .TxVersion
    else if some t.currentTokenStart = t.txStart.map (· + 4) then
      (t.readCount data).bind fun r => { r.2 with numInputsLeft := r.1 }.token data 32 .PrevTxHash
    else t.nextInside data

def byteData : Bytes := (data.drop t.currentTokenStart).take (t.currentTokenEnd - t.currentTokenStart)

/-- The steps from one tokenizer to another, with the tokens they gave. None is an end. -/
inductive Reads (data : Bytes) : TxTokenizer → List (Component × Bytes) → TxTokenizer → Prop
  | refl (t : TxTokenizer) : Reads data t [] t
  | step {t t' t'' : TxTokenizer} {toks : List (Component × Bytes)} (h : t.next data = .ok t')
    (hne : t'.tag ≠ .End)
      (hr : Reads data t' toks t'') : Reads data t ((t'.tag, t'.byteData data) :: toks) t''

/-- The tokenizer throws before the end. -/
def Fails (data : Bytes) (t : TxTokenizer) : Prop := ∃ toks t' e, Reads data t toks t' ∧
    t'.next data = .error e

variable {data rest bs : Bytes} {t t' t'' : TxTokenizer} {toks toks' : List (Component × Bytes)}
  {u : TxTokenizer}

theorem Reads.trans (h : Reads data t toks t') (h' : Reads data t' toks' t'') :
    Reads data t (toks ++ toks') t'' := by
  induction h with
  | refl t => exact h'
  | step hn hne _ ih => exact .step hn hne (ih h')

theorem Reads.fails (h : Reads data t toks t') (h' : Fails data t') : Fails data t := by
  obtain ⟨toks', t'', e, hr, he⟩ := h'
  exact ⟨toks ++ toks', t'', e, h.trans hr, he⟩

theorem fails_of_error {e : String} (h : t.next data = .error e) : Fails data t := ⟨[], t, e, .refl t, h⟩

/-- Behind the version there is always the number of inputs. -/
def Regular (t : TxTokenizer) : Prop :=
  t.tag = .TxVersion → t.txStart.map (· + 4) = some t.currentTokenEnd

/-- A step that gives a token moves on from `pos`, inside the buffer. -/
structure Moved (data : Bytes) (pos : ℕ) (t' : TxTokenizer) : Prop where
  tag_ne : t'.tag ≠ .End
  lt : pos < t'.currentTokenEnd
  le : t'.currentTokenEnd ≤ data.length
  regular : t'.Regular

/-- Its token is behind the old one, in a transaction that starts there or before. -/
structure Placed (t t' : TxTokenizer) : Prop where
  start : t.currentTokenEnd ≤ t'.currentTokenStart
  order : t'.currentTokenStart ≤ t'.currentTokenEnd
  txStart : t'.txStart = some t.currentTokenEnd ∨ t.tag ≠ .End ∧ t'.txStart = t.txStart

theorem token_placed {size : ℕ} {tag : Component} (h : u.token data size tag = .ok t') (hu : Placed t u)
    (hpos : t.currentTokenEnd < u.currentTokenEnd + size) (htag : tag ≠ .End)
    (hreg : tag = .TxVersion → u.txStart.map (· + 4) = some (u.currentTokenEnd + size)) :
    Moved data t.currentTokenEnd t' ∧ Placed t t' := by
  obtain ⟨hle, ⟨⟩⟩ := ite_error_eq_ok_iff.mp h
  exact ⟨⟨htag, hpos, not_lt.mp hle, hreg⟩, hu.start, hu.order.trans (Nat.le_add_right _ _), hu.txStart⟩

theorem compactSizeAt_lt {slack : ℕ} {r : ℕ × ℕ} (h : compactSizeAt slack data pos = .ok r) :
    pos < r.2 := by
  have hwide : ∀ {width : ℕ}, wideSizeAt slack width data pos = .ok r → pos < r.2 := by
    intro width h
    obtain ⟨-, ⟨⟩⟩ := ite_error_eq_ok_iff.mp h
    exact Nat.lt_add_of_pos_right (Nat.succ_pos _)
  unfold compactSizeAt at h
  split at h
  · cases h
  · split_ifs at h
    · cases h
      exact lt_succ_self pos
    all_goals exact hwide h

theorem count_placed {f : ℕ × TxTokenizer → TxTokenizer} {size : ℕ × TxTokenizer → ℕ} {tag : Component}
    (h : ((u.readCount data).bind fun r => (f r).token data (size r) tag) = .ok t') (hu : Placed t u)
    (hf : ∀ r, (f r).currentTokenEnd = r.2.currentTokenEnd ∧ (Placed t r.2 → Placed t (f r)))
    (htag : tag ≠ .End) (hver : tag ≠ .TxVersion) : Moved data t.currentTokenEnd t' ∧ Placed t t' := by
  obtain ⟨r, hr, h⟩ := bind_eq_ok_iff.mp h
  obtain ⟨r', hr', hr⟩ := bind_eq_ok_iff.mp hr
  obtain ⟨-, ⟨⟩⟩ := ite_error_eq_ok_iff.mp hr
  have hlt := (hu.start.trans hu.order).trans_lt (compactSizeAt_lt hr')
  refine token_placed h ((hf _).2 ⟨hlt.le, le_rfl, hu.txStart⟩) ?_ htag fun hv => absurd hv hver
  rw [(hf _).1]
  exact hlt.trans_le (Nat.le_add_right _ _)

theorem next_placed (hreg : t.Regular) (h : t.next data = .ok t') :
    (t'.tag = .End ∧ t'.currentTokenEnd = t.currentTokenEnd ∧ t'.txStart = t.txStart) ∨
      Moved data t.currentTokenEnd t' ∧ Placed t t' := by
  unfold next at h
  dsimp only at h
  split_ifs at h with hlen hst hct
  · cases h
    exact .inl ⟨rfl, rfl, rfl⟩
  · exact .inr (token_placed h ⟨le_rfl, le_rfl, .inl rfl⟩ (Nat.lt_add_of_pos_right (by decide))
      (by decide) fun _ => rfl)
  all_goals
    have hu : ∀ {i o : ℤ}, Placed t ⟨t.txStart, t.currentTokenEnd, t.currentTokenEnd, i, o, t.tag⟩ :=
      ⟨le_rfl, le_rfl, .inr ⟨fun htag => hst (.inr htag), rfl⟩⟩
  · exact .inr (count_placed h hu (fun _ => ⟨rfl, fun hr => { hr with }⟩) (by decide) (by decide))
  · unfold nextInside at h
    dsimp only at h
    have hfixed : ∀ {i o : ℤ} {size : ℕ} {tag : Component},
        token data ⟨t.txStart, t.currentTokenEnd, t.currentTokenEnd, i, o, t.tag⟩ size tag = .ok t' →
        0 < size → tag ≠ .End → tag ≠ .TxVersion → Moved data t.currentTokenEnd t' ∧ Placed t t' := by
      intro i o size tag h hs htag hver
      exact token_placed h hu (Nat.lt_add_of_pos_right hs) htag fun hv => absurd hv hver
    split at h
    · split_ifs at h
      · exact .inr (hfixed h (by decide) (by decide) (by decide))
      · exact .inr (count_placed h hu (fun _ => ⟨rfl, fun hr => { hr with }⟩) (by decide) (by decide))
    · exact .inr (hfixed h (by decide) (by decide) (by decide))
    · exact .inr (count_placed h hu (fun _ => ⟨rfl, id⟩) (by decide) (by decide))
    · exact .inr (hfixed h (by decide) (by decide) (by decide))
    · split_ifs at h
      all_goals exact .inr (hfixed h (by decide) (by decide) (by decide))
    · exact .inr (count_placed h hu (fun _ => ⟨rfl, id⟩) (by decide) (by decide))
    · cases h
      exact .inl ⟨rfl, rfl, rfl⟩
    next htag => exact absurd (hreg htag).symm hct
    next htag => exact absurd (.inr htag) hst

/-- A step stays at the end or moves forward. -/
theorem next_cases (hreg : t.Regular) (h : t.next data = .ok t') :
    (t'.tag = .End ∧ t'.currentTokenEnd = t.currentTokenEnd ∧ t'.txStart = t.txStart) ∨
      Moved data t.currentTokenEnd t' :=
  (next_placed hreg h).imp_right And.left

section Steps

variable {s b e : ℕ} {i o : ℤ} {tag : Component} {tag' : Component} {script : Counted UInt8}

theorem byteData_of_drop (h : data.drop e = bs ++ rest) :
    byteData data ⟨some s, e, e + bs.length, i, o, tag⟩ = bs := by
  rw [byteData, Nat.add_sub_cancel_left, h, take_left]

theorem token_of_drop (h : data.drop e = bs ++ rest) (hne : bs ++ rest ≠ []) (tag' : Component) :
    token data ⟨some s, b, e, i, o, tag⟩ bs.length tag' = .ok ⟨some s, b, e + bs.length, i, o,
      tag'⟩ := by
  have := length_of_drop h hne
  rw [token, if_neg (by dsimp only; omega)]

theorem readCount_write {n : ℕ} (h : data.drop e = WriteCompactSize n ++ rest) (hn : n < 2 ^ 64) :
    readCount data ⟨some s, b, e, i, o, tag⟩ = if 0xFFFF < n then .error "Tx invalid"
      else .ok (n, ⟨some s, e + (WriteCompactSize n).length, e + (WriteCompactSize n).length, i, o,
        tag⟩) := by
  rw [readCount, readCompactSize, compactSizeAt_write h hn, if_neg (by omega), ok_bind]

/-- Inside a transaction, behind its version and the number of its inputs. -/
theorem next_of_inside (hs : s + 4 < e) (hlen : e + 1 < data.length) (htag : tag ≠ .End) :
    next data ⟨some s, b, e, i, o, tag⟩ = nextInside data ⟨some s, e, e, i, o, tag⟩ := by
  rw [next, if_neg (by dsimp only; omega)]
  dsimp only
  rw [if_neg, if_neg]
  · rw [map_some, some_inj]
    omega
  · rw [some_inj]
    rintro (h | h)
    · omega
    · exact htag h

/-- A step inside a transaction that gives a token of a fixed size. -/
theorem reads_fixed {i' o' : ℤ} (hs : s + 4 < e) (h : data.drop e = bs ++ rest)
    (hlen : 2 ≤ (bs ++ rest).length) (htag : tag ≠ .End) (htag' : tag' ≠ .End)
    (hin : nextInside data ⟨some s, e, e, i, o, tag⟩ = token data ⟨some s, e, e, i', o',
      tag⟩ bs.length tag') :
    Reads data ⟨some s, b, e, i, o, tag⟩ [(tag', bs)] ⟨some s, e, e + bs.length, i', o', tag'⟩ := by
  have hne : bs ++ rest ≠ [] := length_pos_iff.mp (by omega)
  have hl := length_of_drop h hne
  rw [length_append] at hlen
  have hnext : next data ⟨some s, b, e, i, o, tag⟩ = .ok ⟨some s, e, e + bs.length, i', o', tag'⟩ := by
    rw [next_of_inside hs (by omega) htag, hin, token_of_drop h hne]
  have hread := Reads.step hnext htag' (.refl _)
  rwa [byteData_of_drop h] at hread

section

variable (hs : s + 4 < e)
  (hin : nextInside data ⟨some s, e, e, i, o, tag⟩ = (readCount data ⟨some s, e, e, i, o, tag⟩).bind
    fun r => r.2.token data r.1 tag')
  (htag : tag ≠ .End)
include hs hin htag

theorem reads_script (htag' : tag' ≠ .End) (h : data.drop e = writeScript script ++ rest)
    (hrest : 2 ≤ rest.length) (hsized : script.Sized) (hsh : script.count ≤ 0xFFFF) :
    ∃ b', Reads data ⟨some s, b, e, i, o, tag⟩ [(tag', script.items)]
      ⟨some s, b', e + (writeScript script).length, i, o, tag'⟩ := by
  have hne : rest ≠ [] := length_pos_iff.mp (by omega)
  have hl := length_of_drop h (by simp [hne])
  have hex : script.count = script.items.length := hsized.exact (by omega)
  rw [writeScript, append_assoc] at h
  have hits := drop_behind h
  refine ⟨e + (WriteCompactSize script.count).length, ?_⟩
  have hnext : next data ⟨some s, b, e, i, o, tag⟩ =
      .ok ⟨some s, e + (WriteCompactSize script.count).length,
        e + (WriteCompactSize script.count).length + script.items.length, i, o, tag'⟩ := by
    rw [next_of_inside hs (by omega) htag, hin, readCount_write h hsized.count_lt,
      if_neg (by omega), ok_bind]
    rw [hex] at hits ⊢
    exact token_of_drop hits (by simp [hne]) tag'
  have hread := Reads.step hnext htag' (.refl _)
  rw [byteData_of_drop hits] at hread
  rwa [writeScript, length_append, ← add_assoc]

theorem fails_script (h : data.drop e = writeScript script ++ rest) (hrest : 2 ≤ rest.length)
    (hsized : script.Sized) (hlong : 0xFFFF < script.count) : Fails data ⟨some s, b, e, i, o, tag⟩ := by
  have hne : rest ≠ [] := length_pos_iff.mp (by omega)
  have hl := length_of_drop h (by simp [hne])
  rw [writeScript, append_assoc] at h
  refine fails_of_error (e := "Tx invalid") ?_
  rw [next_of_inside hs (by omega) htag, hin, readCount_write h hsized.count_lt, if_pos hlong,
    error_bind]

end

end Steps

/-- `enter p k` is behind the first token of the item at `p` with `k` left, `leave b p k` behind its
last. -/
structure ItemSteps (data : Bytes) (lo : ℕ) {α : Type} (write : α → Bytes)
    (tokens : α → List (Component × Bytes)) (Valid Short : α → Prop) (enter : ℕ → ℤ → TxTokenizer)
    (leave : ℕ → ℕ → ℤ → TxTokenizer) : Prop where
  reads : ∀ {a : α} {t : TxTokenizer} {p : ℕ} {k : ℤ} {rest : Bytes}, lo < p →
    t.next data = .ok (enter p k) →
    data.drop p = write a ++ rest → 2 ≤ rest.length → Valid a → Short a →
    ∃ b, Reads data t (tokens a) (leave b (p + (write a).length) k)
  fails : ∀ {a : α} {t : TxTokenizer} {p : ℕ} {k : ℤ} {rest : Bytes}, lo < p →
    t.next data = .ok (enter p k) →
    data.drop p = write a ++ rest → 2 ≤ rest.length → Valid a → ¬ Short a → Fails data t
  next : ∀ {a : α} {b p : ℕ} {k : ℤ} {rest : Bytes}, lo < p → data.drop p = write a ++ rest → 1 < k →
    (leave b p k).next data = .ok (enter p (k - 1))

section Items

variable {α : Type} {write : α → Bytes} {tokens : α → List (Component × Bytes)} {Valid Short : α → Prop}
  {enter : ℕ → ℤ → TxTokenizer} {leave : ℕ → ℕ → ℤ → TxTokenizer} {lo p : ℕ} {items : List α}

variable (hstps : ItemSteps data lo write tokens Valid Short enter leave)

include hstps

/-- The tokenizer is in front of the second item when the first one is read. -/
theorem ItemSteps.next_cons {a a' : α} {b : ℕ}
    (hlo : lo < p) (h : data.drop p = write a ++ ((a' :: items).flatMap write ++ rest)) :
    (leave b (p + (write a).length) ((a :: a' :: items).length : ℕ)).next data =
      .ok (enter (p + (write a).length) ((a' :: items).length : ℕ)) := by
  have hdrop := drop_behind h
  rw [flatMap_cons, append_assoc] at hdrop
  rw [hstps.next (by omega) hdrop (by simp only [length_cons]; omega)]
  simp

/-- All items are read, or the first long one stops the tokenizer. -/
theorem ItemSteps.all (hne : items ≠ []) (hlo : lo < p)
    (hnext : t.next data = .ok (enter p (items.length : ℕ)))
    (h : data.drop p = items.flatMap write ++ rest) (hrest : 2 ≤ rest.length)
    (hval : ∀ a ∈ items, Valid a) :
    ((∀ a ∈ items, Short a) →
      ∃ b, Reads data t (items.flatMap tokens) (leave b (p + (items.flatMap write).length) 1)) ∧
      ((¬ ∀ a ∈ items, Short a) → Fails data t) := by
  induction items generalizing t p with
  | nil => exact absurd rfl hne
  | cons a items ih =>
    rw [flatMap_cons, append_assoc] at h
    obtain ⟨hva, hval⟩ := forall_mem_cons.mp hval
    rw [forall_mem_cons]
    have hroom : 2 ≤ (items.flatMap write ++ rest).length := by
      rw [length_append]
      omega
    by_cases hfst : Short a
    swap
    · exact ⟨fun hsh => absurd hsh.1 hfst, fun _ => hstps.fails hlo hnext h hroom hva hfst⟩
    obtain ⟨b, hb⟩ := hstps.reads hlo hnext h hroom hva hfst
    cases items with
    | nil => exact ⟨fun _ => ⟨b, by simpa using hb⟩, fun hlong => absurd ⟨hfst, by simp⟩ hlong⟩
    | cons a' items =>
      obtain ⟨hreads, hfails⟩ := ih (by simp) (by omega) (hstps.next_cons hlo h) (drop_behind h) hval
      refine ⟨fun hsh => ?_, fun hlong => hb.fails (hfails fun hall => hlong ⟨hfst, hall⟩)⟩
      obtain ⟨b', hb'⟩ := hreads hsh.2
      exact ⟨b', by simpa [add_assoc] using hb.trans hb'⟩

omit hstps

end Items

section Inputs

variable {s p : ℕ} {i o : ℤ} {txin : RawTxIn}

def inputTokens (txin : RawTxIn) : List (Component × Bytes) :=
  [(.PrevTxHash, txin.prevout.hash.toBytes), (.PrevTxIndex, encode 4 txin.prevout.n),
    (.TxInScript, txin.scriptSig.items), (.Sequence, encode 4 txin.nSequence)]

def atInput (s p : ℕ) (i o : ℤ) : TxTokenizer := ⟨some s, p, p + 32, i, o, .PrevTxHash⟩

/-- The first two tokens of an input, however the tokenizer got to it. -/
theorem reads_prevout (hs : s + 4 < p) (hnext : t.next data = .ok (atInput s p i o))
    (h : data.drop p = txin.write ++ rest) :
    Reads data t [(.PrevTxHash, txin.prevout.hash.toBytes), (.PrevTxIndex, encode 4 txin.prevout.n)]
      ⟨some s, p + 32, p + 36, i, o, .PrevTxIndex⟩ := by
  simp only [RawTxIn.write, append_assoc] at h
  have hn := drop_behind h
  have hbyte : byteData data ⟨some s, p, p + txin.prevout.hash.toBytes.length, i, o, .PrevTxHash⟩ =
    txin.prevout.hash.toBytes := byteData_of_drop h
  rw [Uint256.length_toBytes] at hn hbyte
  have hix : Reads data (atInput s p i o) [(.PrevTxIndex, encode 4 txin.prevout.n)]
      ⟨some s, p + 32, p + 32 + (encode 4 txin.prevout.n).length, i, o, .PrevTxIndex⟩ :=
    reads_fixed (by omega) hn (by simp only [length_append, length_encode]; omega)
      (by decide) (by decide) (by rw [length_encode]; rfl)
  have hread := Reads.step hnext (by simp [atInput]) hix
  rwa [atInput, hbyte] at hread

theorem script_of_input (h : data.drop p = txin.write ++ rest) :
    data.drop (p + 36) = writeScript txin.scriptSig ++ (encode 4 txin.nSequence ++ rest) := by
  simp only [RawTxIn.write, append_assoc] at h
  have hdrop := drop_behind (drop_behind h)
  rwa [Uint256.length_toBytes, length_encode] at hdrop

theorem inputSteps (data : Bytes) (s : ℕ) (o : ℤ) :
    ItemSteps data (s + 4) RawTxIn.write inputTokens RawTxIn.Valid (fun txin =>
      txin.scriptSig.count ≤ 0xFFFF)
      (fun p i => atInput s p i o) fun b p i => ⟨some s, b, p, i, o, .Sequence⟩ where
  reads := by
    intro txin t p i rest hs hnext h _ hval hsh
    have hscr := script_of_input h
    have hlen : p + txin.write.length = p + 36 + (writeScript txin.scriptSig).length + 4 := by
      simp only [RawTxIn.write, length_append, Uint256.length_toBytes, length_encode]
      omega
    have hroom : 2 ≤ (encode 4 txin.nSequence ++ rest).length := by
      rw [length_append, length_encode]
      omega
    obtain ⟨b, hb⟩ : ∃ b, Reads data ⟨some s, p + 32, p + 36, i, o, .PrevTxIndex⟩
      [(.TxInScript, txin.scriptSig.items)]
        ⟨some s, b, p + 36 + (writeScript txin.scriptSig).length, i, o, .TxInScript⟩ :=
      reads_script (by omega) rfl (by decide) (by decide) hscr hroom hval.script hsh
    have hseq : Reads data ⟨some s, b, p + 36 + (writeScript txin.scriptSig).length, i, o, .TxInScript⟩
        [(.Sequence, encode 4 txin.nSequence)] ⟨some s, p + 36 + (writeScript txin.scriptSig).length,
          p + 36 + (writeScript txin.scriptSig).length + (encode 4 txin.nSequence).length, i, o,
          .Sequence⟩ :=
      reads_fixed (by omega) (drop_behind hscr) hroom (by decide) (by decide)
        (by rw [length_encode]; rfl)
    rw [length_encode, ← hlen] at hseq
    exact ⟨_, (reads_prevout hs hnext h).trans (hb.trans hseq)⟩
  fails := by
    intro txin t p i rest hs hnext h _ hval hlong
    exact (reads_prevout hs hnext h).fails (fails_script (by omega) rfl (by decide) (script_of_input h)
      (by rw [length_append, length_encode]; omega) hval.script (not_le.mp hlong))
  next := by
    intro txin b p i rest hs h hi
    simp only [RawTxIn.write, append_assoc] at h
    have hhash := Uint256.length_toBytes txin.prevout.hash
    have hne : txin.prevout.hash.toBytes ≠ [] := length_pos_iff.mp (by omega)
    have hlen := length_of_drop h (by simp [hne])
    rw [next_of_inside hs (by omega) (by decide), nextInside]
    dsimp only
    rw [if_pos (by omega), ← hhash, token_of_drop h (by simp [hne]), atInput, hhash]

end Inputs

section Outputs

variable {s p : ℕ} {i o : ℤ} {txout : RawTxOut}

def outputTokens (txout : RawTxOut) : List (Component × Bytes) :=
  [(.OutputValue, encodeInt 8 txout.nValue), (.OutputScript, txout.scriptPubKey.items)]

/-- The tokenizer behind the value that an output at `p` starts with. -/
def atOutput (s p : ℕ) (i o : ℤ) : TxTokenizer := ⟨some s, p, p + 8, i, o, .OutputValue⟩

theorem reads_value (hnext : t.next data = .ok (atOutput s p i o))
    (h : data.drop p = txout.write ++ rest) :
    Reads data t [(.OutputValue, encodeInt 8 txout.nValue)] (atOutput s p i o) := by
  have hbyte : byteData data ⟨some s, p, p + (encodeInt 8 txout.nValue).length, i, o, .OutputValue⟩ =
    encodeInt 8 txout.nValue := byteData_of_drop h
  rw [length_encodeInt] at hbyte
  have hread := Reads.step hnext (by simp [atOutput]) (.refl _)
  rwa [atOutput, hbyte] at hread

theorem script_of_output (h : data.drop p = txout.write ++ rest) :
    data.drop (p + 8) = writeScript txout.scriptPubKey ++ rest := by
  rw [write, append_assoc] at h
  have hdrop := drop_behind h
  rwa [length_encodeInt] at hdrop

theorem outputSteps (data : Bytes) (s : ℕ) (i : ℤ) :
    ItemSteps data (s + 4) write outputTokens RawTxOut.Valid (fun txout =>
      txout.scriptPubKey.count ≤ 0xFFFF)
      (fun p o => atOutput s p i o) fun b p o => ⟨some s, b, p, i, o, .OutputScript⟩ where
  reads := by
    intro txout t p o rest hs hnext h hrest hval hsh
    obtain ⟨b, hb⟩ : ∃ b, Reads data (atOutput s p i o) [(.OutputScript, txout.scriptPubKey.items)]
        ⟨some s, b, p + 8 + (writeScript txout.scriptPubKey).length, i, o, .OutputScript⟩ :=
      reads_script (by omega) rfl (by decide) (by decide) (script_of_output h) hrest hval.script hsh
    have hlen : p + txout.write.length = p + 8 + (writeScript txout.scriptPubKey).length := by
      rw [write, length_append, length_encodeInt, add_assoc]
    rw [← hlen] at hb
    exact ⟨b, (reads_value hnext h).trans hb⟩
  fails := by
    intro txout t p o rest hs hnext h hrest hval hlong
    exact (reads_value hnext h).fails
      (fails_script (by omega) rfl (by decide) (script_of_output h) hrest hval.script (not_le.mp hlong))
  next := by
    intro txout b p o rest hs h ho
    rw [write, append_assoc] at h
    have hval := length_encodeInt 8 txout.nValue
    have hne : encodeInt 8 txout.nValue ≠ [] := length_pos_iff.mp (by omega)
    have hlen := length_of_drop h (by simp [hne])
    rw [next_of_inside hs (by omega) (by decide), nextInside]
    dsimp only
    rw [if_pos (by omega), ← hval, token_of_drop h (by simp [hne]), atOutput, hval]

end Outputs

end TxTokenizer

/-- No count and no script length is above what the tokenizer takes. -/
def RawTx.Short (tx : RawTx) : Prop :=
  tx.vin.count ≤ 0xFFFF ∧ (∀ txin ∈ tx.vin.items, txin.scriptSig.count ≤ 0xFFFF) ∧
    tx.vout.count ≤ 0xFFFF ∧ ∀ txout ∈ tx.vout.items, txout.scriptPubKey.count ≤ 0xFFFF

instance (tx : RawTx) : Decidable tx.Short := inferInstanceAs (Decidable (_ ∧ _ ∧ _ ∧ _))

theorem RawTx.Valid.exact {tx : RawTx} (h : tx.Valid) (hsh : tx.Short) : tx.Exact where
  vin := h.vin_sized.exact (by have := hsh.1; omega)
  inScripts txin ht := (h.vin txin ht).script.exact (by have := hsh.2.1 txin ht; omega)
  vout := h.vout_sized.exact (by have := hsh.2.2.1; omega)
  outScripts txout ht := (h.vout txout ht).script.exact (by have := hsh.2.2.2 txout ht; omega)

namespace TxTokenizer

def bodyTokens (tx : RawTx) : List (Component × Bytes) :=
  tx.vin.items.flatMap inputTokens ++
    (tx.vout.items.flatMap outputTokens ++ [(.LockTime, encode 4 tx.nLockTime)])

def atVersion (s : ℕ) (i o : ℤ) : TxTokenizer := ⟨some s, s, s + 4, i, o, .TxVersion⟩

section Transaction

variable {data rest : Bytes} {tx : RawTx} {s : ℕ} {i o : ℤ} {n : ℕ}

/-- From the version to the first input: the number of inputs is read on the way. -/
theorem next_version (h : data.drop (s + 4) = WriteCompactSize n ++ rest) (hn : n < 2 ^ 64)
    (hrest : 32 ≤ rest.length) :
    next data (atVersion s i o) =
      if 0xFFFF < n then .error "Tx invalid"
        else .ok (atInput s (s + 4 + (WriteCompactSize n).length) n o) := by
  have hne : rest ≠ [] := length_pos_iff.mp (by omega)
  have hlen := length_of_drop h (by simp [hne])
  rw [atVersion, next, if_neg (by dsimp only; omega)]
  rw [if_neg (by simp), if_pos (by simp), readCount_write h hn]
  split_ifs
  · rfl
  · rw [ok_bind, token, if_neg (by dsimp only; omega), atInput]

theorem next_outputs {b p : ℕ} (hs : s + 4 < p) (h : data.drop p = WriteCompactSize n ++ rest)
    (hn : n < 2 ^ 64) (hrest : 8 ≤ rest.length) : next data ⟨some s, b, p, 1, o, .Sequence⟩ =
      if 0xFFFF < n then .error "Tx invalid"
        else .ok (atOutput s (p + (WriteCompactSize n).length) 0 n) := by
  have hne : rest ≠ [] := length_pos_iff.mp (by omega)
  have hlen := length_of_drop h (by simp [hne])
  rw [next_of_inside hs (by omega) (by decide), nextInside]
  dsimp only
  rw [if_neg (by decide), readCount_write h hn]
  split_ifs
  · rfl
  · rw [ok_bind, token, if_neg (by dsimp only; omega), atOutput]
    rfl

theorem length_write_txin (txin : RawTxIn) : 40 ≤ txin.write.length := by
  simp only [RawTxIn.write, length_append, Uint256.length_toBytes, length_encode]
  omega

theorem length_write_txout (txout : RawTxOut) : 8 ≤ txout.write.length := by
  simp only [write, length_append, length_encodeInt]
  omega

theorem length_flatMap_ge {α : Type} {write : α → Bytes} {items : List α} (hne : items ≠ [])
    (h : ∀ a, n ≤ (write a).length) : n ≤ (items.flatMap write).length := by
  obtain ⟨a, items, rfl⟩ := exists_cons_of_ne_nil hne
  have := h a
  rw [flatMap_cons, length_append]
  omega

/-- The rest of a transaction behind the number of its outputs. -/
theorem reads_outputs {t : TxTokenizer} {p : ℕ} (hs : s + 4 < p) (hval : tx.Valid)
    (hne : tx.vout.items ≠ []) (hex : tx.vout.Exact)
    (hsh : ∀ txout ∈ tx.vout.items, txout.scriptPubKey.count ≤ 0xFFFF)
    (hnext : t.next data = .ok (atOutput s p i tx.vout.count))
    (h : data.drop p = tx.vout.items.flatMap write ++ (encode 4 tx.nLockTime ++ rest)) :
    ∃ b o', Reads data t (tx.vout.items.flatMap outputTokens ++ [(.LockTime, encode 4 tx.nLockTime)])
      ⟨some s, b, p + (tx.vout.items.flatMap write).length + 4, i, o', .LockTime⟩ := by
  have hroom : 2 ≤ (encode 4 tx.nLockTime ++ rest).length := by
    rw [length_append, length_encode]
    omega
  rw [hex] at hnext
  obtain ⟨b, hb⟩ := ((outputSteps data s i).all hne hs hnext h hroom hval.vout).1 hsh
  have hlock : Reads data ⟨some s, b, p + (tx.vout.items.flatMap write).length, i, 1, .OutputScript⟩
      [(.LockTime, encode 4 tx.nLockTime)] ⟨some s, p + (tx.vout.items.flatMap write).length,
        p + (tx.vout.items.flatMap write).length + (encode 4 tx.nLockTime).length, i, 0,
        .LockTime⟩ :=
    reads_fixed (by omega) (drop_behind h) hroom (by decide) (by decide) (by rw [length_encode]; rfl)
  exact ⟨_, _, hb.trans hlock⟩

theorem parts_of_tx (h : data.drop s = tx.write ++ rest) :
    data.drop (s + 4) = WriteCompactSize tx.vin.count ++ (tx.vin.items.flatMap RawTxIn.write ++
      (WriteCompactSize tx.vout.count ++
        (tx.vout.items.flatMap write ++ (encode 4 tx.nLockTime ++ rest)))) := by
  simp only [RawTx.write, writeVector, append_assoc] at h
  have hdrop := drop_behind h
  rwa [length_encodeInt] at hdrop

theorem reads_vin (hval : tx.Valid) (hin : tx.vin.items ≠ []) (hvin : tx.vin.count ≤ 0xFFFF)
    (hsh : ∀ txin ∈ tx.vin.items, txin.scriptSig.count ≤ 0xFFFF) (h : data.drop s = tx.write ++ rest) :
    ∃ b, Reads data (atVersion s i o) (tx.vin.items.flatMap inputTokens)
      ⟨some s, b, s + 4 + (WriteCompactSize tx.vin.count).length +
        (tx.vin.items.flatMap RawTxIn.write).length, 1, o, .Sequence⟩ := by
  have hpts := parts_of_tx h
  have hins := length_flatMap_ge hin length_write_txin
  have hpos := length_WriteCompactSize_pos tx.vin.count
  have hex : (tx.vin.count : ℤ) = (tx.vin.items.length : ℕ) :=
    congrArg _ (hval.vin_sized.exact (by omega))
  have hnext : next data (atVersion s i o) =
      .ok (atInput s (s + 4 + (WriteCompactSize tx.vin.count).length) (tx.vin.items.length : ℕ) o) := by
    rw [next_version hpts hval.vin_sized.count_lt (by simp only [length_append]; omega),
      if_neg (by omega), hex]
  exact ((inputSteps data s o).all hin (by omega) hnext (drop_behind hpts)
    (by simp only [length_append, length_encode]; omega) hval.vin).1 hsh

theorem next_vout {b : ℕ} (hval : tx.Valid) (hout : tx.vout.items ≠ [])
    (h : data.drop s = tx.write ++ rest) :
    next data ⟨some s, b,
      s + 4 + (WriteCompactSize tx.vin.count).length + (tx.vin.items.flatMap RawTxIn.write).length,
        1, o, .Sequence⟩ = if 0xFFFF < tx.vout.count then .error "Tx invalid"
      else .ok (atOutput s (s + 4 + (WriteCompactSize tx.vin.count).length +
        (tx.vin.items.flatMap RawTxIn.write).length + (WriteCompactSize tx.vout.count).length) 0
          tx.vout.count) := by
  have hpos := length_WriteCompactSize_pos tx.vin.count
  have houts := length_flatMap_ge hout length_write_txout
  exact next_outputs (by omega) (drop_behind (drop_behind (parts_of_tx h))) hval.vout_sized.count_lt
    (by simp only [length_append]; omega)

/-- The tokenizer goes through the parts of a transaction up to its lock time. -/
theorem reads_tx (hval : tx.Valid) (hin : tx.vin.items ≠ []) (hout : tx.vout.items ≠ []) (hsh : tx.Short)
    (h : data.drop s = tx.write ++ rest) :
    ∃ b i' o', Reads data (atVersion s i o) (bodyTokens tx) ⟨some s, b, s + tx.write.length, i', o',
      .LockTime⟩ := by
  have hex := hval.exact hsh
  obtain ⟨hvin, hinScripts, hvout, houtScripts⟩ := hsh
  obtain ⟨b, hb⟩ := reads_vin (i := i) (o := o) hval hin hvin hinScripts h
  have hnext := next_vout (b := b) (o := o) hval hout h
  rw [if_neg (by omega)] at hnext
  have hpos := length_WriteCompactSize_pos tx.vin.count
  obtain ⟨b', o', hb'⟩ := reads_outputs (by omega) hval hout hex.vout houtScripts hnext
    (drop_behind (drop_behind (drop_behind (parts_of_tx h))))
  have hlen : s + tx.write.length = s + 4 + (WriteCompactSize tx.vin.count).length +
      (tx.vin.items.flatMap RawTxIn.write).length + (WriteCompactSize tx.vout.count).length +
      (tx.vout.items.flatMap write).length + 4 := by
    simp only [RawTx.write, writeVector, length_append, length_encode, length_encodeInt]
    omega
  rw [← hlen] at hb'
  exact ⟨b', 0, o', hb.trans hb'⟩

/-- A transaction with a long script or vector stops the tokenizer. -/
theorem fails_tx (hval : tx.Valid) (hin : tx.vin.items ≠ []) (hout : tx.vout.items ≠ [])
    (hlong : ¬ tx.Short) (h : data.drop s = tx.write ++ rest) : Fails data (atVersion s i o) := by
  have hpts := parts_of_tx h
  have hins := length_flatMap_ge hin length_write_txin
  have hpos := length_WriteCompactSize_pos tx.vin.count
  have hnext := next_version (i := i) (o := o) hpts hval.vin_sized.count_lt
    (by simp only [length_append]; omega)
  -- the first of the four limits that is passed
  by_cases hvin : tx.vin.count ≤ 0xFFFF
  swap
  · rw [if_pos (by omega)] at hnext
    exact fails_of_error hnext
  rw [if_neg (by omega), show (tx.vin.count : ℤ) = (tx.vin.items.length : ℕ) from
    congrArg _ (hval.vin_sized.exact (by omega))] at hnext
  by_cases hinScripts : ∀ txin ∈ tx.vin.items, txin.scriptSig.count ≤ 0xFFFF
  swap
  · exact ((inputSteps data s o).all hin (by omega) hnext (drop_behind hpts)
      (by simp only [length_append, length_encode]; omega) hval.vin).2 hinScripts
  obtain ⟨b, hb⟩ := reads_vin (i := i) (o := o) hval hin hvin hinScripts h
  refine hb.fails ?_
  have hnext := next_vout (b := b) (o := o) hval hout h
  by_cases hvout : tx.vout.count ≤ 0xFFFF
  swap
  · rw [if_pos (by omega)] at hnext
    exact fails_of_error hnext
  rw [if_neg (by omega), show (tx.vout.count : ℤ) = (tx.vout.items.length : ℕ) from
    congrArg _ (hval.vout_sized.exact (by omega))] at hnext
  exact ((outputSteps data s 0).all hout (by omega) hnext (drop_behind (drop_behind (drop_behind hpts)))
    (by rw [length_append, length_encode]; omega) hval.vout).2
    fun houtScripts => hlong ⟨hvin, hinScripts, hvout, houtScripts⟩

end Transaction

end TxTokenizer

end FloweeHub
