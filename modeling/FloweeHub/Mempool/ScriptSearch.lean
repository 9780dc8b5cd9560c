import FloweeHub.Validation.Readers

/-! Searching the mempool for an output script, `findByScriptHashed`. The loop takes
`next(Tx::OutputScript)` for false at the end, but `Tx::End` is not zero, so it stays there. -/

namespace FloweeHub

open TxTokenizer List Validation

def Component.value : Component → ℕ
  | .TxVersion => 1
  | .PrevTxHash => 2
  | .PrevTxIndex => 4
  | .TxInScript => 8
  | .Sequence => 0x10
  | .OutputValue => 0x20
  | .OutputScript => 0x40
  | .LockTime => 0x80
  | .End => 0x100

namespace GetLiveTransaction

variable (sha256 : Bytes → Uint256) (address : Uint256) {data : Bytes} {t t' t'' : TxTokenizer}
  {toks : List (Component × Bytes)} {tx : RawTx} {txs : List RawTx}

/-- `next(Tx::End)` and then `prevTx`, for at most `n` tokens. -/
def takeTx (data : Bytes) : ℕ → TxTokenizer → Option (Except String (Option Bytes))
  | 0, _ => none
  | n + 1, t =>
    match t.next data with
    | .error what => some (.error what)
    | .ok t => if t.tag = .End then some (.ok (some (t.prevTx data))) else takeTx data n t

def searchTx (data : Bytes) : ℕ → TxTokenizer → Option (Except String (Option Bytes))
  | 0, _ => none
  | n + 1, t =>
    match t.next data with
    | .error what => some (.error what)
    | .ok t =>
      -- the filter of `next(Tx::OutputScript)` passes over all other tokens but the end
      if t.tag ≠ .OutputScript ∧ t.tag ≠ .End then searchTx data n t
      else if t.tag.value = 0 then some (.ok none)
      else if sha256 (t.byteData data) = address then takeTx data n t
      else searchTx data n t

/-- What is in `m_tx` in the end, with at most `n` tokens of each transaction. -/
def findByScriptHashed (n : ℕ) : List Bytes → Option (Except String (Option Bytes))
  | [] => some (.ok none)
  | data :: pool =>
    match searchTx sha256 address data n ofTx with
    | some (.ok none) => findByScriptHashed n pool
    | r => r

/-- Whether the transaction pays to the script. -/
def HasScript (tx : RawTx) : Prop := ∃ txout ∈ tx.vout.items, sha256 txout.scriptPubKey.items = address

/-- The search ends with a transaction that has such a script exactly if there is one. -/
def Exact (txs : List RawTx) : Prop :=
  ∃ n found, findByScriptHashed sha256 address n (txs.map RawTx.write) = some (.ok found) ∧
    (found.isSome ↔ ∃ tx ∈ txs, HasScript sha256 address tx) ∧
    ∀ data ∈ found, ∃ tx ∈ txs, tx.write = data ∧ HasScript sha256 address tx

variable {sha256 address}

theorem takeTx_of_reads (h : Reads data t toks t') (hend : t'.next data = .ok t'')
    (htag : t''.tag = .End) :
    takeTx data (toks.length + 1) t = some (.ok (some (t''.prevTx data))) := by
  induction h with
  | refl t =>
    rw [takeTx, hend]
    exact if_pos htag
  | step hn hne _ ih =>
    rw [takeTx, hn]
    exact (if_neg hne).trans (ih hend)

theorem searchTx_of_hit (h : Reads data t toks t') (hend : t'.next data = .ok t'')
    (htag : t''.tag = .End) (hhit : ∃ bs, (Component.OutputScript, bs) ∈ toks ∧ sha256 bs = address) :
    searchTx sha256 address data (toks.length + 1) t = some (.ok (some (t''.prevTx data))) := by
  induction h with
  | refl t => simp at hhit
  | @step t t1 t' toks hn hne hr ih =>
    rw [length_cons, searchTx, hn]
    dsimp only
    by_cases hout : t1.tag = .OutputScript
    · rw [if_neg (by simp [hout]), if_neg (by simp [hout, Component.value])]
      split_ifs with hsha
      · exact takeTx_of_reads hr hend htag
      · apply ih hend
        obtain ⟨bs, hbs, hsha'⟩ := hhit
        rcases mem_cons.mp hbs with heq | hbs
        · exact absurd ((Prod.mk.inj heq).2 ▸ hsha') hsha
        · exact ⟨bs, hbs, hsha'⟩
    · rw [if_pos ⟨hout, hne⟩]
      apply ih hend
      obtain ⟨bs, hbs, hsha⟩ := hhit
      rcases mem_cons.mp hbs with heq | hbs
      · exact absurd (Prod.mk.inj heq).1.symm hout
      · exact ⟨bs, hbs, hsha⟩

/-- Behind the tokens of a transaction without such a script the loop goes on at its end. -/
theorem searchTx_of_miss (h : Reads data t toks t')
    (hmiss : ∀ bs, (Component.OutputScript, bs) ∈ toks → sha256 bs ≠ address) (n : ℕ) :
    searchTx sha256 address data n t = none ∨
      ∃ m, searchTx sha256 address data n t = searchTx sha256 address data m t' := by
  induction h generalizing n with
  | refl t => exact .inr ⟨n, rfl⟩
  | @step t t1 t' toks hn hne hr ih =>
    cases n with
    | zero => exact .inl rfl
    | succ n =>
      have hgoes : searchTx sha256 address data (n + 1) t = searchTx sha256 address data n t1 := by
        rw [searchTx, hn]
        dsimp only
        by_cases hout : t1.tag = .OutputScript
        · rw [if_neg (by simp [hout]), if_neg (by simp [hout, Component.value]), if_neg]
          exact hmiss _ (hout ▸ mem_cons_self)
        · rw [if_pos ⟨hout, hne⟩]
      rw [hgoes]
      exact ih (fun bs hbs => hmiss bs (mem_cons_of_mem _ hbs)) n

/-- At the end of the buffer the search stays, or takes the lock time for the script. -/
theorem searchTx_at_end (hstay : t.next data = .ok t') (hstay' : t'.next data = .ok t')
    (htag : t'.tag = .End) (n : ℕ) :
    searchTx sha256 address data n t = none ∨ sha256 (t'.byteData data) = address ∧
      searchTx sha256 address data n t = some (.ok (some (t'.prevTx data))) := by
  have htake : ∀ n, takeTx data n t' = none ∨ takeTx data n t' = some (.ok (some (t'.prevTx data))) := by
    intro n
    cases n with
    | zero => exact .inl rfl
    | succ n =>
      rw [takeTx, hstay']
      exact .inr (if_pos htag)
  induction n generalizing t with
  | zero => exact .inl rfl
  | succ n ih =>
    rw [searchTx, hstay]
    dsimp only
    rw [if_neg (by simp [htag]), if_neg (by simp [htag, Component.value])]
    split_ifs with hsha
    · exact (htake n).imp_right fun h => ⟨hsha, h⟩
    · exact ih hstay'

theorem mem_txTokens {bs : Bytes} : (Component.OutputScript, bs) ∈ txTokens tx ↔
    ∃ txout ∈ tx.vout.items, txout.scriptPubKey.items = bs := by
  simp [txTokens, bodyTokens, inputTokens, outputTokens, eq_comm]

/-- The iterator over a transaction comes to an end at which it stays. -/
theorem reads_to_end (hwell : tx.Proper ∧ tx.Short) : ∃ t t', Reads tx.write ofTx (txTokens tx) t ∧
    t.next tx.write = .ok t' ∧ t'.next tx.write = .ok t' ∧ t'.tag = .End ∧
      t'.prevTx tx.write = tx.write := by
  obtain ⟨⟨hval, hin, hout⟩, hsh⟩ := hwell
  have hdrop : tx.write.drop 0 = tx.write ++ [] := (append_nil _).symm
  obtain ⟨b, i, o, hbody⟩ := reads_tx (i := -1) (o := -1) hval hin hout hsh hdrop
  have hrd := Reads.step (next_ofTx hin) (by simp [atVersion]) hbody
  rw [byteData_version, Nat.zero_add] at hrd
  refine ⟨_, ⟨some 0, b, tx.write.length, i, o, .End⟩, hrd, ?_, ?_, rfl, ?_⟩
  · exact if_pos (Nat.le_succ _)
  · exact if_pos (Nat.le_succ _)
  · simp [prevTx]

/-- The search is exact if the first transaction has the script or there is none, and never else. -/
theorem search_exact_iff (hwell : ∀ tx ∈ txs, tx.Proper ∧ tx.Short) :
    Exact sha256 address txs ↔ ∀ tx ∈ txs.head?, HasScript sha256 address tx := by
  cases txs with
  | nil => exact iff_of_true ⟨0, none, rfl, by simp, nofun⟩ nofun
  | cons tx txs =>
    obtain ⟨t, t', hrd, hend, hstay, htag, hprev⟩ := reads_to_end (hwell tx mem_cons_self)
    simp only [head?_cons, Option.mem_some_iff, forall_eq']
    constructor
    · rintro ⟨n, found, hrun, -, hsome⟩
      by_contra hmiss
      have hno : ∀ bs, (Component.OutputScript, bs) ∈ txTokens tx → sha256 bs ≠ address := by
        intro bs hbs hsha
        obtain ⟨txout, hmem, rfl⟩ := mem_txTokens.mp hbs
        exact hmiss ⟨txout, hmem, hsha⟩
      -- the search of the first transaction does not end, or ends with that transaction
      have hfst : searchTx sha256 address tx.write n ofTx = none ∨
          searchTx sha256 address tx.write n ofTx = some (.ok (some tx.write)) := by
        rcases searchTx_of_miss hrd hno n with hnone | ⟨m, hm⟩
        · exact .inl hnone
        · rw [hm]
          have hlast := @searchTx_at_end sha256 address _ _ _ hend hstay htag m
          rw [hprev] at hlast
          exact hlast.imp_right And.right
      rw [map_cons, findByScriptHashed] at hrun
      rcases hfst with hnone | hfd
      · rw [hnone] at hrun
        cases hrun
      · rw [hfd] at hrun
        cases hrun
        obtain ⟨tx', hmem, heq, hscr⟩ := hsome _ rfl
        have hread := RawTx.inverts_read.read (hwell tx' hmem).1.valid []
        rw [heq, RawTx.inverts_read.read (hwell tx mem_cons_self).1.valid []] at hread
        obtain rfl : tx = tx' := (Prod.mk.inj (Except.ok.inj hread)).1
        exact hmiss hscr
    · rintro ⟨txout, hmem, hsha⟩
      have hhit := searchTx_of_hit hrd hend htag ⟨_, mem_txTokens.mpr ⟨txout, hmem, rfl⟩, hsha⟩
      refine ⟨(txTokens tx).length + 1, some tx.write, ?_, ?_, ?_⟩
      · rw [map_cons, findByScriptHashed, hhit, hprev]
      · exact iff_of_true rfl ⟨tx, mem_cons_self, txout, hmem, hsha⟩
      · rintro _ ⟨⟩
        exact ⟨tx, mem_cons_self, rfl, txout, hmem, hsha⟩

theorem search_exact_scriptTx : Exact (fun bs => bs.length) 1 [scriptTx 1, scriptTx 0] := by
  refine (search_exact_iff (by decide)).mpr fun tx htx => ?_
  cases htx
  exact ⟨_, mem_singleton_self _, rfl⟩

/-- There is no such script, and the search of the one transaction never ends. -/
theorem search_stays_at_end : ¬ HasScript (fun _ => 0) 1 (scriptTx 0) ∧
    ∀ n, findByScriptHashed (fun _ => 0) 1 n [(scriptTx 0).write] = none := by
  have hne : (0 : Uint256) ≠ 1 := by decide
  have hwell : (scriptTx 0).Proper ∧ (scriptTx 0).Short := by decide
  obtain ⟨t, t', hrd, hend, hstay, htag, -⟩ := reads_to_end hwell
  have hnone : ∀ n, searchTx (fun _ => 0) 1 (scriptTx 0).write n ofTx = none := by
    intro n
    rcases @searchTx_of_miss (fun _ => 0) 1 _ _ _ _ hrd (fun _ _ => hne) n with hnone | ⟨m, hm⟩
    · exact hnone
    · rw [hm]
      exact (searchTx_at_end hend hstay htag m).resolve_right fun h => hne h.1
  constructor
  · rintro ⟨_, -, h⟩
    exact hne h
  · intro n
    rw [findByScriptHashed, hnone]

end GetLiveTransaction

end FloweeHub
