import FloweeHub.Mempool.Calls

/-! No output is spent twice in the mempool. `insertTx` looks for conflicts only where the storage
has no orphan for an input. Proved is which calls keep that, and which fail an assertion. -/

namespace FloweeHub.TxMemPool

open Lib Relation DoubleSpendProof Option List Or

variable (env : MempoolEnv) {m m' : TxMemPool} {utxo : Utxo} {tx : PoolTx} {op : OutPoint}
  {p : DoubleSpendProof} {s : DoubleSpendProofStorage} {id : ℤ} {ent : NewEntry}

/-! ### Orphans of the inputs -/

/-- A proof on which the validation throws or fails the assertion on the public key. -/
def NoKey (m : TxMemPool) (utxo : Utxo) (tx : PoolTx) (p : DoubleSpendProof) : Prop :=
  p.wellFormed ∧ ((∃ prevTx, (m.lookupsWith utxo tx).tx p.prevTxId = some prevTx ∧
    ¬ OutputTokenized prevTx p.prevOut.n) ∨
    p.FindsOutput (m.lookupsWith utxo tx) ∧
      ¬ (p.KeyTokenized tx.toTransaction ∧ p.pubkeyIn tx.toTransaction ≠ []))

/-- Up to the first valid orphan, none leads to the assertion on the public key. -/
def Keyed (m : TxMemPool) (utxo : Utxo) (tx : PoolTx) : List (ℤ × ℤ) → Prop
  | [] => True
  | (id, _) :: orphans =>
    ¬ m.NoKey utxo tx ((m.dspStorage.proofs.lookup id).getD emptyProof) ∧
      (m.verdict env utxo tx id = some .Valid ∨ m.Keyed utxo tx orphans)

theorem mem_of_mapM_orphanOf {list : List ℤ} {found : List (List (ℤ × ℤ))}
    (h : list.mapM (s.orphanOf op) = some found) : ∀ id ∈ list, id ∈ s.proofs := by
  induction list generalizing found with
  | nil => simp
  | cons id list ih =>
    rw [mapM_cons] at h
    obtain ⟨first, hfst, h⟩ := bind_eq_some_iff.mp h
    obtain ⟨rest, hrest, -⟩ := bind_eq_some_iff.mp h
    obtain ⟨proof, hprf, -⟩ := map_eq_some_iff.mp hfst
    exact forall_mem_cons.mpr ⟨Table.mem_iff_lookup.mpr ⟨proof, hprf⟩, ih hrest⟩

theorem mem_findOrphans {orphans : List (ℤ × ℤ)} (h : s.findOrphans op = some orphans)
    {peerId : ℤ} (ho : (id, peerId) ∈ orphans) :
    ∃ p, s.proofs.lookup id = some p ∧ p.prevTxId = op.hash ∧ p.prevOutIndex = Int32.ofNat op.n := by
  obtain ⟨lists, hls, rfl⟩ := map_eq_some_iff.mp h
  rw [DoubleSpendProofStorage.mapM_orphanOf (mem_of_mapM_orphanOf hls)] at hls
  cases hls
  obtain ⟨list, hlist, ho⟩ := mem_flatten.mp ho
  obtain ⟨id', -, rfl⟩ := mem_map.mp hlist
  obtain ⟨rfl, time, proof, -, hprf, hhash, hn⟩ := DoubleSpendProofStorage.mem_found.mp ho
  exact ⟨proof, hprf, hhash, hn⟩

theorem prevOut_eq (hn : op.n < 2 ^ 32) (hhash : p.prevTxId = op.hash)
    (hix : p.prevOutIndex = Int32.ofNat op.n) : p.prevOut = op := by
  rw [prevOut, hhash, hix]
  have hnat : (Int32.ofNat op.n).toUInt32.toNat = op.n := UInt32.toNat_ofNat_of_lt' hn
  rw [hnat]

/-- The new transaction spends the output of such an orphan. -/
theorem spending_of_input (m : TxMemPool) (utxo : Utxo) (hop : op ∈ inputs tx)
    (hhash : p.prevTxId = op.hash) (hix : p.prevOutIndex = Int32.ofNat op.n) :
    p.prevOut = op ∧ (m.lookupsWith utxo tx).spending p.prevOut = some tx.toTransaction := by
  obtain ⟨txin, htxin, rfl⟩ := mem_map.mp hop
  have hprevOut := prevOut_eq (tx.index_lt txin htxin) hhash hix
  refine ⟨hprevOut, ?_⟩
  rw [lookupsWith, hprevOut]
  exact if_pos hop

theorem outputKnown_of_available (hav : m.Available utxo op) (hhash : p.prevTxId = op.hash)
    (hprevOut : p.prevOut = op) : p.OutputKnown (m.lookupsWith utxo tx) := by
  rcases hav with hout | hutxo
  · left
    rw [lookupsWith, hhash]
    dsimp only
    split_ifs
    · rfl
    · rw [lookups, isSome_map]
      cases hlk : m.mapTx.lookup op.hash with
      | none => simp [hasOutput, hlk] at hout
      | some e => rfl
  · right
    rwa [hprevOut]

theorem verdict_of_available (hop : op ∈ inputs tx) (hav : m.Available utxo op)
    (hp : m.dspStorage.proofs.lookup id = some p) (hhash : p.prevTxId = op.hash)
    (hix : p.prevOutIndex = Int32.ofNat op.n) :
    m.NoKey utxo tx p ∧ m.verdict env utxo tx id = none ∨
      ¬ m.NoKey utxo tx p ∧
        (m.verdict env utxo tx id = some .Valid ∨ m.verdict env utxo tx id = some .Invalid) := by
  obtain ⟨hprevOut, hspending⟩ := spending_of_input m utxo hop hhash hix
  have hnokey : m.NoKey utxo tx p ↔ ¬ p.HasKey (m.lookupsWith utxo tx) := by
    simp only [NoKey, HasKey, hspending, Option.some.injEq, forall_eq', Classical.not_imp,
      not_and_or, not_forall]
  rw [verdict, hp, getD_some, hnokey]
  by_cases hkey : p.HasKey (m.lookupsWith utxo tx)
  · refine inr ⟨not_not.mpr hkey, (validate_decides_iff env.verify hspending).mpr ⟨hkey, fun _ => ?_⟩⟩
    exact outputKnown_of_available hav hhash hprevOut
  · refine inl ⟨hkey, not_isSome_iff_eq_none.mp fun hsome => hkey ?_⟩
    exact (validate_isSome_iff env.verify).mp hsome

/-- The orphans lead to no failing assertion exactly if they are keyed. -/
theorem examine_isSome_iff (hav : ∀ op ∈ inputs tx, m.Available utxo op) {orphans : List (ℤ × ℤ)}
    (horps : ∀ o ∈ orphans, ∃ op ∈ inputs tx, ∃ p, m.dspStorage.proofs.lookup o.1 = some p ∧
      p.prevTxId = op.hash ∧ p.prevOutIndex = Int32.ofNat op.n) :
    (examine (m.verdict env utxo tx) orphans).isSome ↔ m.Keyed env utxo tx orphans := by
  induction orphans with
  | nil => exact iff_of_true rfl trivial
  | cons o orphans ih =>
    obtain ⟨⟨op, hop, p, hp, hhash, hix⟩, hrest⟩ := forall_mem_cons.mp horps
    have htail := ih hrest
    rw [examine, Keyed, hp, getD_some]
    rcases verdict_of_available env hop (hav op hop) hp hhash hix with ⟨hkey, hvd⟩ | ⟨hkey, hvd | hvd⟩
    · simp [hvd, hkey]
    · simp [hvd, hkey]
    · simp [hvd, hkey, htail]

theorem ScanClean.of_passes {ops : List OutPoint} (h : m.ScanClean utxo ops)
    (hpass : ∀ op ∈ ops, m.Passes utxo op) :
    ∀ op ∈ ops, (m.dspStorage.findOrphans op).isSome ∧ op ∉ m.mapNextTx := by
  induction ops with
  | nil => simp
  | cons op ops ih =>
    obtain ⟨hfd, hspt, hrest⟩ := h
    obtain ⟨hhead, htail⟩ := forall_mem_cons.mp hpass
    refine forall_mem_cons.mpr ⟨⟨hfd, ?_⟩, ih (hrest hhead) htail⟩
    rcases hhead with horphaned | hfree
    · exact hspt horphaned
    · exact hfree.1

theorem Accepts.orphans (h : m.Accepts utxo tx) : ∀ o ∈ m.orphansFor (inputs tx), ∃ op ∈ inputs tx,
    ∃ p, m.dspStorage.proofs.lookup o.1 = some p ∧ p.prevTxId = op.hash ∧
      p.prevOutIndex = Int32.ofNat op.n := by
  rintro ⟨id, peerId⟩ ho
  obtain ⟨op, hop, ho⟩ := mem_flatMap.mp ho
  obtain ⟨orphans, hfind⟩ := isSome_iff_exists.mp (h.clean.of_passes h.passes op hop).1
  rw [hfind, getD_some] at ho
  exact ⟨op, hop, mem_findOrphans hfind ho⟩

/-! ### Spent outputs along calls -/

/-- `insertTx` adds a transaction only if all its inputs are unspent outputs. -/
def InsertsUnspent (m : TxMemPool) : Call → Prop
  | .insertTx utxo entry => ∀ m', m.insertTx env utxo entry.1 = some (.inserted, m') →
    ∀ op ∈ inputs entry.1.tx, m.Available utxo op ∧ ∀ p, ¬ m.Spends op p
  | _ => True

/-- The call passes all assertions, `mapNextTx` is exact, and only unspent outputs were spent. -/
def SpendsOnce (m : TxMemPool) (call : Call) : Prop :=
  (m.result env call).isSome ∧ (m.step env call).NextExact ∧ m.InsertsUnspent env call

/-- The listed proofs exist, none is for a spent output, and, if all inputs pass, they are distinct
and available and a valid orphan comes before any without a public key. -/
def Harmless (m : TxMemPool) : Call → Prop
  | .insertTx utxo entry => entry.1.tx.hash ∈ m.mapTx ∨ m.ScanClean utxo (inputs entry.1.tx) ∧
    ((∀ op ∈ inputs entry.1.tx, m.Passes utxo op) → (inputs entry.1.tx).Nodup ∧
      (∀ op ∈ inputs entry.1.tx, m.Available utxo op) ∧
        m.Keyed env utxo entry.1.tx (m.orphansFor (inputs entry.1.tx)))
  | _ => True

theorem spendsOnce_of_untouched (hnext : m.NextExact) {utxo : Utxo} {outcome : Outcome}
    (hins : m.insertTx env utxo ent.1 = some (outcome, m')) (hsame : Same m m')
    (hne : outcome ≠ .inserted) :
    m.SpendsOnce env (.insertTx utxo ent) := by
  have hres : m.result env (.insertTx utxo ent) = some m' := by rw [result, hins]; rfl
  refine ⟨by rw [hres]; rfl, ?_, fun m'' hc => ?_⟩
  · rw [step_of_result env hres]
    exact hsame.nextExact hnext
  · rw [hins] at hc
    exact absurd (Prod.mk.inj (some.inj hc)).1 hne

section

variable (hsnd : m.Sound) (hnext : m.NextExact)
include hsnd hnext

theorem spendsOnce_accepts_iff (h : m.Accepts utxo ent.1.tx) :
    m.SpendsOnce env (.insertTx utxo ent) ↔ (inputs ent.1.tx).Nodup ∧
      (∀ op ∈ inputs ent.1.tx, m.Available utxo op) ∧
      m.Keyed env utxo ent.1.tx (m.orphansFor (inputs ent.1.tx)) := by
  obtain ⟨hnone, hsome⟩ := insertTx_examined env ent.2 hsnd h
  have hfree : ∀ op ∈ inputs ent.1.tx, op ∉ m.mapNextTx := fun op hop =>
    (h.clean.of_passes h.passes op hop).2
  have hunspent : ∀ op ∈ inputs ent.1.tx, ∀ p, ¬ m.Spends op p := fun op hop p hp =>
    hfree op hop (Table.mem_iff_lookup.mpr ⟨p, (hnext op p).mpr hp⟩)
  have hkeyed : (∀ op ∈ inputs ent.1.tx, m.Available utxo op) →
      ((examine (m.verdict env utxo ent.1.tx) (m.orphansFor (inputs ent.1.tx))).isSome ↔
        m.Keyed env utxo ent.1.tx (m.orphansFor (inputs ent.1.tx))) :=
    fun hav => examine_isSome_iff env hav h.orphans
  cases hexm : m.examined env utxo ent.1.tx with
  | none =>
    refine iff_of_false (fun hc => ?_) fun hc => ?_
    · rw [SpendsOnce, result, hnone hexm] at hc
      exact absurd hc.1 (by simp)
    · have hsome := (hkeyed hc.2.1).mpr hc.2.2
      rw [examined] at hexm
      rw [hexm] at hsome
      exact absurd hsome (by simp)
  | some rescued =>
    obtain ⟨m', fin, hins, hadd, hsets, -⟩ := hsome rescued hexm
    have hres : m.result env (.insertTx utxo ent) = some m' := by rw [result, hins]; rfl
    have hiff := hadd.nextExact_iff h.new hsets hnext hfree
    constructor
    · rintro ⟨-, hex, hinserts⟩
      rw [step_of_result env hres] at hex
      have hav := fun op hop => (hinserts m' hins op hop).1
      refine ⟨hiff.mp hex, hav, (hkeyed hav).mp ?_⟩
      rw [examined] at hexm
      rw [hexm]
      rfl
    · rintro ⟨hnd, hav, -⟩
      refine ⟨by rw [hres]; rfl, ?_, fun _ _ op hop => ⟨hav op hop, hunspent op hop⟩⟩
      rw [step_of_result env hres]
      exact hiff.mpr hnd

theorem spendsOnce_insert_iff (utxo : Utxo) (ent : NewEntry) :
    m.SpendsOnce env (.insertTx utxo ent) ↔ m.Harmless env (.insertTx utxo ent) := by
  by_cases hkn : ent.1.tx.hash ∈ m.mapTx
  · refine iff_of_true ?_ (inl hkn)
    exact spendsOnce_of_untouched env hnext (insertTx_known env ent.2 hkn) (same_of_eq rfl rfl rfl)
      (by simp)
  by_cases hcl : m.ScanClean utxo (inputs ent.1.tx)
  · by_cases hpass : ∀ op ∈ inputs ent.1.tx, m.Passes utxo op
    · rw [spendsOnce_accepts_iff env hsnd hnext ⟨hkn, hcl, hpass⟩]
      exact ⟨fun h => inr ⟨hcl, fun _ => h⟩, fun h => (h.resolve_left hkn).2 hpass⟩
    · obtain ⟨outcome, m', hins, hunt, hne⟩ := insertTx_stops env ent.2 hsnd hkn hcl hpass
      refine iff_of_true ?_ (inr ⟨hcl, fun hc => absurd hc hpass⟩)
      exact spendsOnce_of_untouched env hnext hins hunt.toSame hne
  · refine iff_of_false (fun hc => ?_) fun hc => hcl (hc.resolve_left hkn).1
    rw [SpendsOnce, result, insertTx_unclean env ent.2 hkn hcl] at hc
    exact absurd hc.1 (by simp)

theorem spendsOnce_step_iff (call : Call) : m.SpendsOnce env call ↔ m.Harmless env call := by
  by_cases hcall : call.IsInsertion
  · cases call with
    | insertTx utxo ent => exact spendsOnce_insert_iff env hsnd hnext utxo ent
    | _ => exact absurd hcall id
  · obtain ⟨m', hres, -, hex⟩ := result_keeps env (I := fun m => m.Sound ∧ m.NextExact) (fun _ h => h.1)
      (fun _ _ _ h hrem hmem => ⟨hrem.sound h.1 hmem, hrem.nextExact h.1.linked h.2⟩)
      (fun _ _ h hsame hlst => ⟨hsame.sound h.1 hlst, hsame.nextExact h.2⟩) ⟨hsnd, hnext⟩ hcall
    have honce : (m.result env call).isSome ∧ (m.step env call).NextExact := by
      rw [step_of_result env hres, hres]
      exact ⟨rfl, hex⟩
    cases call with
    | insertTx utxo ent => exact absurd trivial hcall
    | _ => exact iff_of_true ⟨honce.1, honce.2, trivial⟩ trivial

end

def spendingFrom (hash prevHash : Uint256) (h : prevHash ≠ hash) (scriptSig : Bytes) : PoolTx where
  hash := hash
  nVersion := 1
  vin := [⟨⟨prevHash, 0⟩, scriptSig, 0⟩]
  vout := [⟨5000, [0x51]⟩]
  nLockTime := 0
  size := 100
  size_pos := by decide
  other_ids := by simpa using h
  index_lt := by simp

/-- `validate` returns exactly if nothing it reads is too long for the tokenizer and the proof meets a
key, and it decides on a rescued orphan exactly if its output is known too. -/
theorem validate_returns_iff (env : MempoolEnv) (m : TxMemPool) (utxo : Utxo) :
    (∀ p : DoubleSpendProof, (p.validate env.verify (m.lookups utxo)).isSome ↔
      p.HasKey (m.lookups utxo)) ∧
    ∀ tx, m.Accepts utxo tx → ∀ o ∈ m.orphansFor (inputs tx), ∃ p,
      m.dspStorage.proofs.lookup o.1 = some p ∧
      (m.verdict env utxo tx o.1 = some .Valid ∨ m.verdict env utxo tx o.1 = some .Invalid ↔
        p.HasKey (m.lookupsWith utxo tx) ∧ (p.wellFormed → p.OutputKnown (m.lookupsWith utxo tx))) := by
  refine ⟨fun p => validate_isSome_iff env.verify, fun tx hacc o ho => ?_⟩
  obtain ⟨op, hop, p, hp, hhash, hix⟩ := hacc.orphans o ho
  refine ⟨p, hp, ?_⟩
  rw [verdict, hp, getD_some]
  exact validate_decides_iff env.verify (spending_of_input m utxo hop hhash hix).2

/-- An output whose script is too long for the tokenizer. -/
def sampleLong : PoolTx :=
  { spendingFrom 8 7 (by decide) [1, 1] with vout := [⟨5000, replicate 70000 0x51⟩] }

/-- An input with the signature alone, as for a pay-to-public-key output, an orphan for an output that
is nowhere, and a proof for an output with a script of 70000 bytes. -/
theorem validate_stops_node :
    let env : MempoolEnv := ⟨fun _ => 0, fun _ _ _ _ _ => true⟩
    let utxo : Utxo := fun op => if op = ⟨7, 0⟩ then some ⟨6000, 2 :: 3 :: 3 :: [0xac]⟩ else none
    let tx (prevHash : Uint256) (h : prevHash ≠ 8) := spendingFrom 8 prevHash h [1, 1]
    let insert (tx : PoolTx) : Call := .insertTx utxo ⟨.ofTx tx 1000, .inl rfl⟩
    let proof (prevHash : Uint256) := DoubleSpendProofStorage.sampleProof prevHash 0
    let orphan (prevHash : Uint256) := step env empty (.addOrphan (proof prevHash) 3 1000)
    ((step env empty (insert (tx 7 (by decide)))).mapTx.keys = [8] ∧
      (proof 7).validate env.verify ((step env empty (insert (tx 7 (by decide)))).lookups utxo) = none ∧
      (orphan 7).result env (insert (tx 7 (by decide))) = none ∧
      (orphan 6).verdict env utxo (tx 6 (by decide)) 1 = some .MissingUTXO ∧
      ((orphan 6).insertTx env utxo (.ofTx (tx 6 (by decide)) 1000)) = none) ∧
    (proof 8).validate env.verify ((step env empty (insert sampleLong)).lookups utxo) = none := by
  intro env utxo tx insert proof orphan
  refine ⟨by decide +kernel, not_isSome_iff_eq_none.mp fun hsome => ?_⟩
  obtain ⟨htok, -⟩ := (validate_isSome_iff env.verify).mp hsome (by decide +kernel)
  have hlong := (htok sampleLong.toTransaction rfl).2.2.2 ⟨5000, replicate 70000 0x51⟩
    (by exact mem_cons_self)
  rw [length_replicate] at hlong
  exact absurd hlong (by decide)

end FloweeHub.TxMemPool
