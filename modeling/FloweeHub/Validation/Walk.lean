import FloweeHub.Primitives.TxTokenizer
import FloweeHub.Validation.State

/-! The loop of `updateUtxoAndStartValidation` over the bytes of a block stops at two ends in a row.
The source counts the outputs; here what is read of them later is kept along. -/

namespace FloweeHub

open Lib Lib.Guards Serialize LittleEndian TxTokenizer RawTx List Prod

/-- What is known of the transaction the iterator is in. -/
structure WalkTx where
  nVersion : ℤ := -1
  outputValue : ℤ := -1
  vout : List TxOut := []
deriving DecidableEq, Repr

namespace WalkTx

/-- An output counts from its value on; it can be read when its script is there too. -/
def add (c : WalkTx) (tok : Component × Bytes) : WalkTx :=
  match tok.1 with
  | .TxVersion => { c with nVersion := decodeInt tok.2 }
  | .OutputValue => { c with outputValue := decodeInt tok.2, vout := c.vout ++ [⟨-1, []⟩] }
  | .OutputScript => { c with vout := c.vout.dropLast ++ [⟨c.outputValue, tok.2⟩] }
  | _ => c

theorem foldl_inputs (items : List RawTxIn) (c : WalkTx) :
    (items.flatMap inputTokens).foldl add c = c := by
  induction items with
  | nil => rfl
  | cons txin items ih => rwa [flatMap_cons, foldl_append]

theorem foldl_outputs (items : List RawTxOut) (hval : ∀ txout ∈ items, txout.Valid) (c : WalkTx) :
    ((items.flatMap outputTokens).foldl add c).nVersion = c.nVersion ∧
      ((items.flatMap outputTokens).foldl add c).vout = c.vout ++ items.map RawTxOut.toTxOut := by
  induction items generalizing c with
  | nil => simp
  | cons txout items ih =>
    have hvalue : decodeInt (encodeInt 8 txout.nValue) = txout.nValue := by
      rw [decodeInt_encodeInt]
      exact (hval txout (by simp)).nValue_fits
    have hone : (outputTokens txout).foldl add c =
        { c with outputValue := txout.nValue, vout := c.vout ++ [txout.toTxOut] } := by
      simp [outputTokens, add, hvalue, RawTxOut.toTxOut]
    obtain ⟨hver, hvout⟩ := ih (fun t ht => hval t (by simp [ht]))
      { c with outputValue := txout.nValue, vout := c.vout ++ [txout.toTxOut] }
    rw [flatMap_cons, foldl_append, hone]
    exact ⟨hver, by rw [hvout, map_cons, append_assoc, singleton_append]⟩

theorem foldl_body {tx : RawTx} (hval : tx.Valid) :
    ((bodyTokens tx).foldl add { nVersion := tx.nVersion }).nVersion = tx.nVersion ∧
      ((bodyTokens tx).foldl add { nVersion := tx.nVersion }).vout =
        tx.vout.items.map RawTxOut.toTxOut := by
  rw [bodyTokens, foldl_append, foldl_inputs, foldl_append]
  simpa [add] using foldl_outputs tx.vout.items hval.vout { nVersion := tx.nVersion }

end WalkTx

/-- What the loop should find of a transaction at `pos`. -/
def RawTx.toWalk (hash256 : Bytes → Uint256) (pos : ℕ) (tx : RawTx) : TxWalk :=
  ⟨hash256 tx.write, pos, tx.nVersion, tx.vout.items.map RawTxOut.toTxOut⟩

/-- What the loop should find of transactions that stand one behind the other. -/
def walked (hash256 : Bytes → Uint256) (pos : ℕ) : List RawTx → List TxWalk
  | [] => []
  | tx :: txs => tx.toWalk hash256 pos :: walked hash256 (pos + tx.write.length) txs

section Walk

variable (hash256 : Bytes → Uint256) (data : Bytes)

/-- The transaction that ends where the iterator is: `prevTx`. -/
def walkEntry (t : TxTokenizer) (c : WalkTx) : TxWalk :=
  let start := t.txStart.getD 0
  ⟨hash256 ((data.drop start).take (t.currentTokenEnd - start)), start, c.nVersion, c.vout⟩

/-- One round of the loop: the transaction it finds, and where it goes on or how it ends. -/
def walkStep (t : TxTokenizer) (c : WalkTx) : List TxWalk × ((TxTokenizer × WalkTx) ⊕ Option String) :=
  match t.next data with
  | .error e => ([], .inr (some e))
  | .ok t =>
    if t.tag = .End then
      match t.next data with
      | .error e => ([walkEntry hash256 data t c], .inr (some e))
      | .ok t' =>
        ([walkEntry hash256 data t c],
          if t'.tag = .End then .inr none else .inl (t', ({} : WalkTx).add (t'.tag, t'.byteData data)))
    else ([], .inl (t, c.add (t.tag, t.byteData data)))

/-- At most `rounds` rounds: the transactions found and the exception, if any. -/
def walkFrom : ℕ → TxTokenizer → WalkTx → List TxWalk × Option String
  | 0, _, _ => ([], some "out of rounds")
  | rounds + 1, t, c =>
    match walkStep hash256 data t c with
    | (found, .inl s) => let r := walkFrom rounds s.1 s.2; (found ++ r.1, r.2)
    | (found, .inr e) => (found, e)

/-- Every round moves on by at least a byte, so these are rounds enough. -/
def walk (t : TxTokenizer) (c : WalkTx) : List TxWalk × Option String :=
  walkFrom hash256 data (data.length + 1) t c

def walkBlock : List TxWalk × Option String := walk hash256 data (ofBlock data 0) {}

end Walk

section Rounds

variable {hash256 : Bytes → Uint256} {data rest : Bytes} {t t' : TxTokenizer} {c c' : WalkTx}
  {found : List TxWalk}

theorem walkStep_moved (hreg : t.Regular)
    (h : walkStep hash256 data t c = (found, .inl (t', c'))) :
    TxTokenizer.Moved data t.currentTokenEnd t' := by
  unfold walkStep at h
  cases hnext : t.next data with
  | error e => simp [hnext] at h
  | ok t1 =>
    simp only [hnext] at h
    rcases next_cases hreg hnext with ⟨hend, hpos, -⟩ | hmv
    · rw [if_pos hend] at h
      cases hnext' : t1.next data with
      | error e => simp [hnext'] at h
      | ok t2 =>
        simp only [hnext', Prod.mk.injEq] at h
        have hreg1 : t1.Regular := fun hv => by simp [hend] at hv
        rcases next_cases hreg1 hnext' with ⟨hend', -⟩ | hmv
        · simp [hend'] at h
        · rw [if_neg hmv.tag_ne] at h
          obtain ⟨rfl, -⟩ := Prod.mk.inj (Sum.inl.inj h.2)
          rwa [hpos] at hmv
    · rw [if_neg hmv.tag_ne] at h
      obtain ⟨rfl, -⟩ := mk.inj (Sum.inl.inj (mk.inj h).2)
      exact hmv

theorem walkFrom_rounds {n m : ℕ} (hreg : t.Regular) (hn : 0 < n ∧ data.length < n + t.currentTokenEnd)
    (hm : 0 < m ∧ data.length < m + t.currentTokenEnd) :
    walkFrom hash256 data n t c = walkFrom hash256 data m t c := by
  induction n generalizing m t c with
  | zero => exact absurd hn.1 (lt_irrefl 0)
  | succ n ih =>
    obtain ⟨m, rfl⟩ : ∃ k, m = k + 1 := ⟨m - 1, by omega⟩
    rw [walkFrom, walkFrom]
    rcases hstep : walkStep hash256 data t c with ⟨found, ⟨t', c'⟩ | e⟩
    · have hmv := walkStep_moved hreg hstep
      have hlt := hmv.lt
      have hle := hmv.le
      have hsame : walkFrom hash256 data n t' c' = walkFrom hash256 data m t' c' :=
        ih hmv.regular (by omega) (by omega)
      simp only [hsame]
    · rfl

theorem walk_step (hreg : t.Regular) (h : walkStep hash256 data t c = (found, .inl (t', c'))) :
    walk hash256 data t c = (found ++ (walk hash256 data t' c').1, (walk hash256 data t' c').2) := by
  have hmv := walkStep_moved hreg h
  have hlt := hmv.lt
  have hle := hmv.le
  have hsame : walkFrom hash256 data data.length t' c' = walk hash256 data t' c' :=
    walkFrom_rounds hmv.regular (by omega) (by omega)
  rw [walk, walkFrom, h]
  simp only [hsame]

theorem walk_stop {e : Option String} (h : walkStep hash256 data t c = (found, .inr e)) :
    walk hash256 data t c = (found, e) := by
  rw [walk, walkFrom, h]

theorem walk_next (hreg : t.Regular) (h : t.next data = .ok t') (hne : t'.tag ≠ .End) :
    walk hash256 data t c = walk hash256 data t' (c.add (t'.tag, t'.byteData data)) := by
  have hstep : walkStep hash256 data t c = ([], .inl (t', c.add (t'.tag, t'.byteData data))) := by
    simp only [walkStep, h, if_neg hne]
  rw [walk_step hreg hstep, nil_append]

theorem walk_error {e : String} (h : t.next data = .error e) : walk hash256 data t c = ([], some e) :=
  walk_stop (by simp only [walkStep, h])

theorem regular_of_next (hreg : t.Regular) (h : t.next data = .ok t') (hne : t'.tag ≠ .End) :
    t'.Regular := by
  rcases next_cases hreg h with ⟨hend, -⟩ | hmv
  · exact absurd hend hne
  · exact hmv.regular

theorem walk_reads {toks : List (Component × Bytes)} (hrd : TxTokenizer.Reads data t toks t')
    (hreg : t.Regular) :
    walk hash256 data t c = walk hash256 data t' (toks.foldl WalkTx.add c) := by
  induction hrd generalizing c with
  | refl t => rfl
  | step h hne _ ih => rw [walk_next hreg h hne, ih (regular_of_next hreg h hne), foldl_cons]

theorem walk_fails (h : TxTokenizer.Fails data t) (hreg : t.Regular) :
    (walk hash256 data t c).2 ≠ none := by
  obtain ⟨toks, t', e, hrd, he⟩ := h
  rw [walk_reads hrd hreg, walk_error he]
  simp

end Rounds

section Ends

variable {hash256 : Bytes → Uint256} {data rest : Bytes} {c : WalkTx} {s b e : ℕ} {i o : ℤ}

theorem next_lockTime (hs : s + 4 < e) : ∃ b',
    next data ⟨some s, b, e, i, o, .LockTime⟩ = .ok ⟨some s, b', e, i, o, .End⟩ := by
  by_cases hlen : data.length ≤ e + 1
  · exact ⟨b, by rw [TxTokenizer.next, if_pos hlen]⟩
  · exact ⟨e, by rw [next_of_inside hs (by omega) (by decide), nextInside]⟩

/-- Behind an end, four more bytes are the version of a transaction. -/
theorem next_behind (start : Option ℕ) (h : data.drop e = rest) (hle : e ≤ data.length) :
    next data ⟨start, b, e, i, o, .End⟩ = if rest.length ≤ 1 then .ok ⟨start, b, e, i, o, .End⟩
      else if rest.length < 4 then .error "Tx data missing" else .ok (atVersion e i o) := by
  have hl := congrArg length h
  rw [length_drop] at hl
  rw [TxTokenizer.next]
  dsimp only
  by_cases h1 : rest.length ≤ 1
  · rw [if_pos h1, if_pos (by omega)]
  · rw [if_neg h1, if_neg (by omega), if_pos (Or.inr rfl), token]
    dsimp only
    by_cases h2 : rest.length < 4
    · rw [if_pos h2, if_pos (by omega)]
    · rw [if_neg h2, if_neg (by omega), atVersion]

/-- What the loop does behind the last byte of a transaction. -/
def walkBehind (hash256 : Bytes → Uint256) (data rest : Bytes) (e : ℕ) (i o : ℤ) :
    List TxWalk × Option String :=
  if rest.length ≤ 1 then ([], none)
  else if rest.length < 4 then ([], some "Tx data missing")
  else walk hash256 data (atVersion e i o)
    (({} : WalkTx).add (.TxVersion, (atVersion e i o).byteData data))

theorem regular_atVersion (s : ℕ) (i o : ℤ) : (atVersion s i o).Regular := fun _ => rfl

theorem walk_lockTime (hs : s + 4 < e) (h : data.drop e = rest) (hle : e ≤ data.length) :
    walk hash256 data ⟨some s, b, e, i, o, .LockTime⟩ c =
      (⟨hash256 ((data.drop s).take (e - s)), s, c.nVersion,
        c.vout⟩ :: (walkBehind hash256 data rest e i o).1,
        (walkBehind hash256 data rest e i o).2) := by
  obtain ⟨b', hend⟩ : ∃ b', next data ⟨some s, b, e, i, o, .LockTime⟩ = .ok ⟨some s, b', e, i,
    o, .End⟩ :=
    next_lockTime hs
  have hbeh := next_behind (b := b') (i := i) (o := o) (some s) h hle
  have hent : walkEntry hash256 data ⟨some s, b', e, i, o, .End⟩ c =
    ⟨hash256 ((data.drop s).take (e - s)), s, c.nVersion, c.vout⟩ := rfl
  unfold walkBehind
  split_ifs at hbeh ⊢ with h1 h2
  · refine walk_stop ?_
    simp only [walkStep, hend, if_true, hbeh, hent]
  · refine walk_stop ?_
    simp only [walkStep, hend, if_true, hbeh, hent]
  · have hstep : walkStep hash256 data ⟨some s, b, e, i, o, .LockTime⟩ c =
        ([⟨hash256 ((data.drop s).take (e - s)), s, c.nVersion, c.vout⟩],
          .inl (atVersion e i o, ({} : WalkTx).add (.TxVersion, (atVersion e i o).byteData data))) := by
      simp only [walkStep, hend, if_true, hbeh, hent]
      rfl
    rw [walk_step (by simp [TxTokenizer.Regular]) hstep, singleton_append]

end Ends

/-! ### Transactions one behind the other -/

section Transactions

variable {hash256 : Bytes → Uint256} {data rest : Bytes} {s : ℕ} {i o : ℤ} {tx : RawTx}
  {txs : List RawTx}

/-- A deserialised transaction that can be in a block. -/
@[mk_iff]
structure RawTx.Proper (tx : RawTx) : Prop where
  valid : tx.Valid
  vin_ne : tx.vin.items ≠ []
  vout_ne : tx.vout.items ≠ []

instance (tx : RawTx) : Decidable tx.Proper := decidable_of_iff' _ (proper_iff tx)

theorem RawTx.length_write_gt (tx : RawTx) : 4 < tx.write.length := by
  have := length_WriteCompactSize_pos tx.vin.count
  simp only [write, writeVector, length_append, length_encodeInt]
  omega

theorem version_add (hval : tx.Valid) (h : data.drop s = tx.write ++ rest) :
    ({} : WalkTx).add (.TxVersion, (atVersion s i o).byteData data) = { nVersion := tx.nVersion } := by
  have hbyte : byteData data ⟨some s, s, s + (encodeInt 4 tx.nVersion).length, i, o, .TxVersion⟩ =
    encodeInt 4 tx.nVersion := byteData_of_drop h
  rw [length_encodeInt] at hbyte
  rw [atVersion, hbyte, WalkTx.add]
  simp only [decodeInt_encodeInt]
  rw [show tx.nVersion.bmod (256 ^ 4) = tx.nVersion from hval.nVersion_fits]

theorem walk_tx (hprop : tx.Proper) (hsh : tx.Short) (h : data.drop s = tx.write ++ rest) :
    ∃ i' o', walk hash256 data (atVersion s i o) { nVersion := tx.nVersion } =
      (tx.toWalk hash256 s :: (walkBehind hash256 data rest (s + tx.write.length) i' o').1,
        (walkBehind hash256 data rest (s + tx.write.length) i' o').2) := by
  have hgt := tx.length_write_gt
  have hlen := length_of_drop h (append_ne_nil_of_left_ne_nil (length_pos_iff.mp (by omega)) _)
  obtain ⟨b, i', o', hrd⟩ := reads_tx (i := i) (o := o) hprop.valid hprop.vin_ne hprop.vout_ne hsh h
  obtain ⟨hver, hvout⟩ := WalkTx.foldl_body hprop.valid
  refine ⟨i', o', ?_⟩
  rw [walk_reads hrd (regular_atVersion s i o),
    walk_lockTime (by omega) (drop_behind h) (by omega), hver, hvout, Nat.add_sub_cancel_left, h,
    take_left, toWalk]

/-- Where another transaction follows, the loop goes on with it. -/
theorem walkBehind_tx (hval : tx.Valid) (h : data.drop s = (tx :: txs).flatMap write ++ rest) :
    walkBehind hash256 data ((tx :: txs).flatMap write ++ rest) s i o =
      walk hash256 data (atVersion s i o) { nVersion := tx.nVersion } := by
  have hgt := tx.length_write_gt
  have hroom : 4 ≤ ((tx :: txs).flatMap write ++ rest).length := by
    simp only [flatMap_cons, length_append]
    omega
  rw [flatMap_cons, append_assoc] at h
  rw [walkBehind, if_neg (by omega), if_neg (by omega), version_add hval h]

/-- The loop finds transactions that stand one behind the other, then goes on behind them. -/
theorem walk_txs (hprop : ∀ t ∈ tx :: txs, t.Proper)
    (hsh : ∀ t ∈ tx :: txs, t.Short) (h : data.drop s = (tx :: txs).flatMap write ++ rest) :
    ∃ i' o', walk hash256 data (atVersion s i o) { nVersion := tx.nVersion } =
      (walked hash256 s (tx :: txs) ++
        (walkBehind hash256 data rest (s + ((tx :: txs).flatMap write).length) i' o').1,
        (walkBehind hash256 data rest (s + ((tx :: txs).flatMap write).length) i' o').2) := by
  induction txs generalizing tx s i o with
  | nil =>
    rw [flatMap_singleton] at h ⊢
    exact walk_tx (hprop tx (by simp)) (hsh tx (by simp)) h
  | cons tx' txs ih =>
    rw [flatMap_cons, append_assoc] at h
    obtain ⟨i1, o1, htx⟩ := walk_tx (i := i) (o := o) (hprop tx (by simp)) (hsh tx (by simp)) h
    obtain ⟨i', o', htxs⟩ := ih (i := i1) (o := o1) (fun t ht => hprop t (by simp [ht]))
      (fun t ht => hsh t (by simp [ht])) (drop_behind h)
    have hpos : s + tx.write.length + ((tx' :: txs).flatMap write).length =
        s + ((tx :: tx' :: txs).flatMap write).length := by
      simp only [flatMap_cons, length_append]
      omega
    rw [hpos] at htxs
    refine ⟨i', o', ?_⟩
    rw [htx, walkBehind_tx (hprop tx' (by simp)).valid (drop_behind h), htxs]
    rfl

/-- A transaction with a long script or vector ends the loop with an exception. -/
theorem walk_long (hprop : ∀ t ∈ tx :: txs, t.Proper)
    (hlong : ¬ ∀ t ∈ tx :: txs, t.Short) (h : data.drop s = (tx :: txs).flatMap write ++ rest) :
    (walk hash256 data (atVersion s i o) { nVersion := tx.nVersion }).2 ≠ none := by
  induction txs generalizing tx s i o with
  | nil =>
    have hp := hprop tx (by simp)
    rw [flatMap_singleton] at h
    refine walk_fails (fails_tx hp.valid hp.vin_ne hp.vout_ne ?_ h) (regular_atVersion s i o)
    simpa using hlong
  | cons tx' txs ih =>
    have hp := hprop tx (by simp)
    rw [flatMap_cons, append_assoc] at h
    by_cases hfst : tx.Short
    · obtain ⟨i1, o1, htx⟩ := walk_tx (i := i) (o := o) hp hfst h
      rw [htx, walkBehind_tx (hprop tx' (by simp)).valid (drop_behind h)]
      refine ih (fun t ht => hprop t (by simp [ht])) (fun hall => hlong ?_) (drop_behind h)
      simpa [hfst] using hall
    · exact walk_fails (fails_tx hp.valid hp.vin_ne hp.vout_ne hfst h) (regular_atVersion s i o)

theorem walkStep_done {t : TxTokenizer} {c : WalkTx} {found : List TxWalk}
    (h : walkStep hash256 data t c = (found, .inr none)) : found ≠ [] := by
  unfold walkStep at h
  split at h
  · simp at h
  · split_ifs at h
    · split at h
      · simp at h
      · obtain ⟨rfl, -⟩ := mk.inj h
        simp
    · simp at h

theorem walk_found {t : TxTokenizer} {c : WalkTx} (h : (walk hash256 data t c).2 = none) :
    (walk hash256 data t c).1 ≠ [] := by
  have hfrom : ∀ (n : ℕ) (t : TxTokenizer) (c : WalkTx), (walkFrom hash256 data n t c).2 = none →
      (walkFrom hash256 data n t c).1 ≠ [] := by
    intro n
    induction n with
    | zero => intro t c h; simp [walkFrom] at h
    | succ n ih =>
      intro t c h
      rw [walkFrom] at h ⊢
      rcases hstep : walkStep hash256 data t c with ⟨found, s | e⟩
      · simp only [hstep] at h ⊢
        exact append_ne_nil_of_right_ne_nil _ (ih s.1 s.2 h)
      · simp only [hstep] at h ⊢
        subst h
        exact walkStep_done hstep
  exact hfrom _ t c h

theorem walkBlock_eq {b : RawBlock} (hvtx : b.vtx.items = tx :: txs) (hval : tx.Valid)
    (h : data = b.write ++ rest) :
    walkBlock hash256 data =
      walk hash256 data (atVersion (80 + (WriteCompactSize b.vtx.count).length) (-1) (-1))
        { nVersion := tx.nVersion } := by
  have hct := BlockBytes.drop_header h
  have hsize := readCompactSizeSize_write hct
  have hdrop := drop_behind hct
  have hgt := tx.length_write_gt
  rw [hvtx] at hct hdrop
  have hroom : 4 ≤ ((tx :: txs).flatMap write ++ rest).length := by
    simp only [flatMap_cons, length_append]
    omega
  have hlen := length_of_drop hct (by simp [length_pos_iff.mp (by omega : 0 < tx.write.length)])
  have hnext := next_behind (b := 80 + (WriteCompactSize b.vtx.count).length) (i := -1)
    (o := -1) none hdrop (by omega)
  have hst : ofBlock data 0 = ⟨none, 80 + (WriteCompactSize b.vtx.count).length,
      80 + (WriteCompactSize b.vtx.count).length, -1, -1, .End⟩ := by
    rw [ofBlock, if_pos rfl, hsize]
  rw [flatMap_cons, append_assoc] at hdrop
  rw [walkBlock, hst, walk_next (by simp [TxTokenizer.Regular]) hnext (by simp [atVersion])]
  exact congrArg _ (version_add hval hdrop)

theorem walkBlock_write {b : RawBlock} (hne : b.vtx.items ≠ []) (hprop : ∀ tx ∈ b.vtx.items, tx.Proper)
    (hsh : ∀ tx ∈ b.vtx.items, tx.Short) (h : data = b.write ++ rest) :
    ∃ e i' o', walkBlock hash256 data =
      (walked hash256 (80 + (WriteCompactSize b.vtx.count).length) b.vtx.items ++
        (walkBehind hash256 data rest e i' o').1, (walkBehind hash256 data rest e i' o').2) := by
  obtain ⟨tx, txs, hvtx⟩ := exists_cons_of_ne_nil hne
  have hdrop := drop_behind (BlockBytes.drop_header h)
  rw [walkBlock_eq hvtx (hprop tx (by simp [hvtx])).valid h]
  rw [hvtx] at hdrop hprop hsh ⊢
  exact ⟨_, walk_txs hprop hsh hdrop⟩

theorem walkBlock_long {b : RawBlock} (hne : b.vtx.items ≠ []) (hprop : ∀ tx ∈ b.vtx.items, tx.Proper)
    (hlong : ¬ ∀ tx ∈ b.vtx.items, tx.Short) (h : data = b.write ++ rest) :
    (walkBlock hash256 data).2 ≠ none := by
  obtain ⟨tx, txs, hvtx⟩ := exists_cons_of_ne_nil hne
  have hdrop := drop_behind (BlockBytes.drop_header h)
  rw [walkBlock_eq hvtx (hprop tx (by simp [hvtx])).valid h]
  rw [hvtx] at hdrop hprop hlong
  exact walk_long hprop hlong hdrop

/-- More than one byte behind the transactions is never passed over in silence. -/
theorem walkBehind_done {e : ℕ} (hnone : (walkBehind hash256 data rest e i o).2 = none)
    (hnil : (walkBehind hash256 data rest e i o).1 = []) : rest.length ≤ 1 := by
  unfold walkBehind at hnone hnil
  split_ifs at hnone hnil with h1 h2
  · exact h1
  · exact absurd hnil (walk_found hnone)

end Transactions

end FloweeHub
