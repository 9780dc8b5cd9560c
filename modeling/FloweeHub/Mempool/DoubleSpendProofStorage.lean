import FloweeHub.Lib.Runs
import FloweeHub.Lib.Table
import FloweeHub.Mempool.DoubleSpendProof
import FloweeHub.Utxo.Leaf

/-! The storage of double spend proofs. Its four tables agree as long as no orphan expires: the
cleanup takes an expired orphan out of one table before `remove` looks there. -/

namespace FloweeHub

open Lib UODB Table Option List

/-- `m_orphans` holds the peer a proof came from and the time it came. -/
structure DoubleSpendProofStorage where
  proofs : Table ℤ DoubleSpendProof
  nextId : ℤ
  orphans : Table ℤ (ℤ × ℤ)
  dspIdLookupTable : Table Uint256 ℤ
  prevTxIdLookupTable : Table ℕ (List ℤ)

namespace DoubleSpendProofStorage

variable (Hash : Bytes → Uint256) (s : DoubleSpendProofStorage)

def empty : DoubleSpendProofStorage := ⟨∅, 1, ∅, ∅, ∅⟩

def SECONDS_TO_KEEP_ORPHANS : ℤ := 90

/-- The loop of `add` for an unused id; it fails only if every id from 1 on is in use. -/
def unusedId (proofs : Table ℤ DoubleSpendProof) : ℕ → ℤ → Option ℤ
  | 0, _ => none
  | turns + 1, id =>
    if id ∈ proofs then
      let id := toInt32 (id + 1)
      unusedId proofs turns (if id < 0 then 1 else id)
    else some id

variable (proof : DoubleSpendProof)

/-- The new storage and the id of the proof, or -1; no result if the search does not end. -/
def add : Option (DoubleSpendProofStorage × ℤ) :=
  if proof.createHash Hash ∈ s.dspIdLookupTable then some (s, -1)
  else
    (unusedId s.proofs (s.proofs.entries.length + 1) s.nextId).map fun id =>
      ({ s with
        proofs := s.proofs.insert id proof
        dspIdLookupTable := s.dspIdLookupTable.insert (proof.createHash Hash) id
        nextId := toInt32 (id + 1) }, id)

def listFor (cheapHash : ℕ) : List ℤ := (s.prevTxIdLookupTable.lookup cheapHash).getD []

def register (id peerId now : ℤ) : DoubleSpendProofStorage :=
  let cheapHash := GetCheapHash proof.prevTxId
  { s with
    orphans := s.orphans.insert id (peerId, now)
    prevTxIdLookupTable := s.prevTxIdLookupTable.insert cheapHash (s.listFor cheapHash ++ [id]) }

def addOrphan (peerId now : ℤ) : Option DoubleSpendProofStorage :=
  (s.add Hash proof).map fun (s, id) => if id = -1 then s else s.register proof id peerId now

/-- The test of one listed id; there is no result if the assertion fails. -/
def orphanOf (prevOut : OutPoint) (id : ℤ) : Option (List (ℤ × ℤ)) :=
  (s.proofs.lookup id).map fun proof =>
    if proof.prevOutIndex = Int32.ofNat prevOut.n ∧ proof.prevTxId = prevOut.hash then
      ((s.orphans.lookup id).map fun orphan => (id, orphan.1)).toList
    else []

def findOrphans (prevOut : OutPoint) : Option (List (ℤ × ℤ)) :=
  ((s.listFor (GetCheapHash prevOut.hash)).mapM (s.orphanOf prevOut)).map flatten

/-- Take an id off a list of the table; the last one goes with its list. -/
def unlist (table : Table ℕ (List ℤ)) (cheapHash : ℕ) (list : List ℤ) (id : ℤ) : Table ℕ (List ℤ) :=
  if list.erase id = [] then table.erase cheapHash else table.insert cheapHash (list.erase id)

def claimOrphan (proofId : ℤ) : DoubleSpendProofStorage :=
  if proofId ∈ s.orphans then
    { s with
      orphans := s.orphans.erase proofId
      prevTxIdLookupTable :=
        match s.prevTxIdLookupTable.entries.find? fun e => proofId ∈ e.2 with
        | some ⟨cheapHash, list⟩ => unlist s.prevTxIdLookupTable cheapHash list proofId
        | none => s.prevTxIdLookupTable }
  else s

/-- The part of `remove` for orphans. A list of one id is dropped without a look at the id. -/
def removeOrphan (proof : DoubleSpendProof) (id : ℤ) : DoubleSpendProofStorage :=
  if id ∈ s.orphans then
    let cheapHash := GetCheapHash proof.prevTxId
    { s with
      orphans := s.orphans.erase id
      prevTxIdLookupTable :=
        match s.prevTxIdLookupTable.lookup cheapHash with
        | some queue =>
          if queue.length = 1 then s.prevTxIdLookupTable.erase cheapHash
          else s.prevTxIdLookupTable.insert cheapHash (queue.erase id)
        | none => s.prevTxIdLookupTable }
  else s

def eraseProof (proof : DoubleSpendProof) (id : ℤ) : DoubleSpendProofStorage :=
  { s with
    dspIdLookupTable := s.dspIdLookupTable.erase (proof.createHash Hash)
    proofs := s.proofs.erase id }

def remove (id : ℤ) : DoubleSpendProofStorage :=
  match s.proofs.lookup id with
  | none => s
  | some proof => (s.removeOrphan proof id).eraseProof Hash proof id

/-- Punishing the peer is outside of the storage. -/
def periodicCleanup (now : ℤ) : DoubleSpendProofStorage :=
  s.orphans.entries.foldl (fun s e =>
    if e.2.2 ≤ now - SECONDS_TO_KEEP_ORPHANS then
      remove Hash { s with orphans := s.orphans.erase e.1 } e.1 else s) s

/-- The calls of the storage. -/
inductive Call
  | add (proof : DoubleSpendProof)
  | addOrphan (proof : DoubleSpendProof) (peerId : ℤ)
  | findOrphans (prevOut : OutPoint)
  | claimOrphan (proofId : ℤ)
  | remove (id : ℤ)
  | periodicCleanup

/-- The storage after a call at the given time. A call that does not return leaves it alone. -/
def step (c : Call × ℤ) : DoubleSpendProofStorage :=
  match c.1 with
  | .add proof => ((s.add Hash proof).map Prod.fst).getD s
  | .addOrphan proof peerId => (s.addOrphan Hash proof peerId c.2).getD s
  | .findOrphans _ => s
  | .claimOrphan proofId => s.claimOrphan proofId
  | .remove id => s.remove Hash id
  | .periodicCleanup => s.periodicCleanup Hash c.2

/-- The four tables describe the same proofs and orphans. -/
structure Consistent : Prop where
  hash_proof : ∀ hash id, s.dspIdLookupTable.lookup hash = some id →
    ∃ proof, s.proofs.lookup id = some proof ∧ proof.createHash Hash = hash
  orphan_listed : ∀ id ∈ s.orphans, ∃ proof, s.proofs.lookup id = some proof ∧
    id ∈ s.listFor (GetCheapHash proof.prevTxId)
  listed : ∀ cheapHash list, s.prevTxIdLookupTable.lookup cheapHash = some list → list ≠ [] ∧
    list.Nodup ∧
    ∀ id ∈ list, id ∈ s.orphans ∧ ∃ proof, s.proofs.lookup id = some proof ∧
      GetCheapHash proof.prevTxId = cheapHash

/-- `findOrphans` passes its assertion and gives the orphans of an output with their peers. -/
def FindsOrphans : Prop :=
  ∀ prevOut, ∃ answer, s.findOrphans prevOut = some answer ∧ answer.Nodup ∧
    ∀ id peerId, (id, peerId) ∈ answer ↔
    ∃ time proof, s.orphans.lookup id = some (peerId, time) ∧ s.proofs.lookup id = some proof ∧
      proof.prevTxId = prevOut.hash ∧ proof.prevOutIndex = Int32.ofNat prevOut.n

/-- The call is a cleanup that meets an orphan whose time is over. -/
def Expires (c : Call × ℤ) : Prop :=
  match c.1 with
  | .periodicCleanup =>
    ∃ id peerId time, s.orphans.lookup id = some (peerId, time) ∧
    time ≤ c.2 - SECONDS_TO_KEEP_ORPHANS
  | _ => False

/-- Besides the tables' agreement: each proof is found by its hash. -/
structure Inv : Prop extends Consistent Hash s where
  proof_hash : ∀ id proof, s.proofs.lookup id = some proof →
    s.dspIdLookupTable.lookup (proof.createHash Hash) = some id

variable {Hash s} {proof : DoubleSpendProof} {id : ℤ}
  {id' peerId : ℤ} {s' : DoubleSpendProofStorage} {H : ℕ} {list : List ℤ} {prevOut : OutPoint}

theorem inv_empty : Inv Hash empty where
  hash_proof := by simp [empty]
  orphan_listed := by simp [empty]
  listed := by simp [empty]
  proof_hash := by simp [empty]

theorem unusedId_notMem {proofs : Table ℤ DoubleSpendProof} {turns : ℕ} {start : ℤ}
    (h : unusedId proofs turns start = some id) : id ∉ proofs := by
  induction turns generalizing start with
  | zero => exact absurd h (by simp [unusedId])
  | succ turns ih =>
    rw [unusedId] at h
    split at h
    · exact ih h
    · next hmem => exact some.inj h ▸ hmem

def withProof (s : DoubleSpendProofStorage) (Hash : Bytes → Uint256) (proof : DoubleSpendProof)
    (id : ℤ) :
    DoubleSpendProofStorage :=
  { s with
    proofs := s.proofs.insert id proof
    dspIdLookupTable := s.dspIdLookupTable.insert (proof.createHash Hash) id
    nextId := toInt32 (id + 1) }

theorem lookup_withProof_of_ne (h : id' ≠ id) : (s.withProof Hash proof id).proofs.lookup id' =
      s.proofs.lookup id' := by
  rw [withProof, lookup_insert, if_neg h]

theorem ne_of_lookup {proof' : DoubleSpendProof} (hid : id ∉ s.proofs)
    (h : s.proofs.lookup id' = some proof') :
    id' ≠ id := by
  rintro rfl
  exact hid (AList.lookup_isSome.mp (by rw [h]; rfl))

theorem Inv.withProof (h : Inv Hash s) (hhash : proof.createHash Hash ∉ s.dspIdLookupTable)
    (hid : id ∉ s.proofs) :
    Inv Hash (s.withProof Hash proof id) where
  hash_proof := by
    intro hash id' hlk
    simp only [DoubleSpendProofStorage.withProof, lookup_insert] at hlk
    split_ifs at hlk with heq
    · cases hlk
      exact ⟨proof, by rw [DoubleSpendProofStorage.withProof, lookup_insert, if_pos rfl], heq.symm⟩
    · obtain ⟨p, hp, hh⟩ := h.hash_proof hash id' hlk
      exact ⟨p, by rw [lookup_withProof_of_ne (ne_of_lookup hid hp), hp], hh⟩
  orphan_listed := by
    intro id' hmem
    obtain ⟨p, hp, hlist⟩ := h.orphan_listed id' hmem
    exact ⟨p, by rw [lookup_withProof_of_ne (ne_of_lookup hid hp), hp], hlist⟩
  listed := by
    intro H list hlist
    obtain ⟨hne, hnd, hall⟩ := h.listed H list hlist
    refine ⟨hne, hnd, fun id' hmem => ?_⟩
    obtain ⟨horp, p, hp, hchp⟩ := hall id' hmem
    exact ⟨horp, p, by rw [lookup_withProof_of_ne (ne_of_lookup hid hp), hp], hchp⟩
  proof_hash := by
    intro id' p hp
    simp only [DoubleSpendProofStorage.withProof, lookup_insert] at hp ⊢
    split_ifs at hp with heq
    · cases hp
      rw [if_pos rfl, heq]
    · have hkn := h.proof_hash id' p hp
      have hne : p.createHash Hash ≠ proof.createHash Hash := by
        intro hcon
        rw [hcon] at hkn
        exact hhash (AList.lookup_isSome.mp (by rw [hkn]; rfl))
      rw [if_neg hne, hkn]

/-- What `add` does: nothing for a known proof, else a new proof under a new id. -/
theorem add_cases (h : s.add Hash proof = some (s', id)) : (s' = s ∧ id = -1) ∨
      (proof.createHash Hash ∉ s.dspIdLookupTable ∧ id ∉ s.proofs ∧ s' = s.withProof Hash proof id) := by
  rw [add] at h
  split_ifs at h with hkn
  · cases h
    exact .inl ⟨rfl, rfl⟩
  · obtain ⟨id', hid, heq⟩ := map_eq_some_iff.mp h
    cases heq
    exact .inr ⟨hkn, unusedId_notMem hid, rfl⟩

theorem Inv.add (h : Inv Hash s) (hadd : s.add Hash proof = some (s', id)) : Inv Hash s' := by
  rcases add_cases hadd with ⟨rfl, -⟩ | ⟨hhash, hid, rfl⟩
  · exact h
  · exact h.withProof hhash hid

theorem mem_listFor : id ∈ s.listFor H ↔ ∃ list, s.prevTxIdLookupTable.lookup H = some list ∧
      id ∈ list := by
  rw [listFor]
  cases s.prevTxIdLookupTable.lookup H with
  | none => simp
  | some list => simp

theorem Inv.notMem_listFor (h : Inv Hash s) (hid : id ∉ s.orphans) (H : ℕ) : id ∉ s.listFor H := by
  intro hmem
  obtain ⟨list, hlist, hmem⟩ := mem_listFor.mp hmem
  exact hid ((h.listed H list hlist).2.2 id hmem).1

theorem Inv.nodup_listFor (h : Inv Hash s) (H : ℕ) : (s.listFor H).Nodup := by
  rw [listFor]
  cases hlist : s.prevTxIdLookupTable.lookup H with
  | none => exact nodup_nil
  | some list => exact (h.listed H list hlist).2.1

theorem Inv.register (h : Inv Hash s) {now : ℤ} (hprf : s.proofs.lookup id = some proof)
    (hid : id ∉ s.orphans) :
    Inv Hash (s.register proof id peerId now) where
  __ := h
  orphan_listed := by
    intro id' hmem
    simp only [DoubleSpendProofStorage.register, AList.mem_insert] at hmem
    have hown : id ∈ (s.register proof id peerId now).listFor (GetCheapHash proof.prevTxId) := by
      rw [listFor, DoubleSpendProofStorage.register, lookup_insert, if_pos rfl]
      simp
    rcases hmem with rfl | hmem
    · exact ⟨proof, hprf, hown⟩
    · obtain ⟨p, hp, hlist⟩ := h.orphan_listed id' hmem
      refine ⟨p, hp, ?_⟩
      rw [listFor, DoubleSpendProofStorage.register, lookup_insert]
      split_ifs with hsame
      · rw [hsame] at hlist
        simp [hlist]
      · exact hlist
  listed := by
    intro H list hlist
    simp only [DoubleSpendProofStorage.register, lookup_insert] at hlist
    have hold : ∀ list', s.prevTxIdLookupTable.lookup H = some list' → ∀ id' ∈ list',
        id' ∈ (s.register proof id peerId now).orphans ∧
          ∃ p, s.proofs.lookup id' = some p ∧ GetCheapHash p.prevTxId = H := by
      intro list' hlist' id' hmem
      obtain ⟨horp, hp⟩ := (h.listed H list' hlist').2.2 id' hmem
      exact ⟨(AList.mem_insert _).mpr (.inr horp), hp⟩
    split_ifs at hlist with hsame
    · cases hlist
      refine ⟨by simp, ?_, ?_⟩
      · refine nodup_append.mpr ⟨h.nodup_listFor _, nodup_singleton _, ?_⟩
        rintro a ha b hb rfl
        rw [mem_singleton] at hb
        exact h.notMem_listFor hid _ (hb ▸ ha)
      · intro id' hmem
        rcases mem_append.mp hmem with hmem | hmem
        · obtain ⟨list', hlist', hmem⟩ := mem_listFor.mp hmem
          rw [← hsame] at hlist'
          exact hold list' hlist' id' hmem
        · rw [mem_singleton] at hmem
          subst hmem
          exact ⟨(AList.mem_insert _).mpr (.inl rfl), proof, hprf, hsame.symm⟩
    · obtain ⟨hne, hnd, -⟩ := h.listed H list hlist
      exact ⟨hne, hnd, hold list hlist⟩

theorem Inv.addOrphan (h : Inv Hash s) {now : ℤ}
    (hadd : s.addOrphan Hash proof peerId now = some s') : Inv Hash s' := by
  obtain ⟨⟨s1, id⟩, hs1, rfl⟩ := map_eq_some_iff.mp hadd
  have hinv := h.add hs1
  simp only
  split_ifs with hid
  · exact hinv
  · rcases add_cases hs1 with ⟨-, hkn⟩ | ⟨-, hnew, rfl⟩
    · exact absurd hkn hid
    · refine hinv.register ?_ ?_
      · rw [DoubleSpendProofStorage.withProof, lookup_insert, if_pos rfl]
      · intro horp
        obtain ⟨p, hp, -⟩ := h.orphan_listed id horp
        exact ne_of_lookup hnew hp rfl

def withoutOrphan (s : DoubleSpendProofStorage) (cheapHash : ℕ) (list : List ℤ) (id : ℤ) :
    DoubleSpendProofStorage :=
  { s with
    orphans := s.orphans.erase id
    prevTxIdLookupTable := unlist s.prevTxIdLookupTable cheapHash list id }

theorem lookup_unlist {table : Table ℕ (List ℤ)} {cheapHash' : ℕ} :
    (unlist table H list id).lookup cheapHash' =
      if cheapHash' = H then (if list.erase id = [] then none else some (list.erase id))
      else table.lookup cheapHash' := by
  rw [unlist]
  split_ifs with hemp hsame hsame
  · rw [lookup_erase, if_pos hsame]
  · rw [lookup_erase, if_neg hsame]
  · rw [lookup_insert, if_pos hsame]
  · rw [lookup_insert, if_neg hsame]

theorem Inv.withoutOrphan (h : Inv Hash s)
    (hlist : s.prevTxIdLookupTable.lookup H = some list) (hid : id ∈ list) :
    Inv Hash (s.withoutOrphan H list id) where
  __ := h
  orphan_listed := by
    intro id' hmem
    obtain ⟨hne, hmem⟩ := AList.mem_erase.mp hmem
    obtain ⟨p, hp, hlst⟩ := h.orphan_listed id' hmem
    refine ⟨p, hp, ?_⟩
    obtain ⟨list', hlist', hmem'⟩ := mem_listFor.mp hlst
    rw [mem_listFor, DoubleSpendProofStorage.withoutOrphan, lookup_unlist]
    split_ifs with hsame hemp
    · rw [hsame, hlist] at hlist'
      cases hlist'
      have := (mem_erase_of_ne hne).mpr hmem'
      rw [hemp] at this
      exact absurd this not_mem_nil
    · rw [hsame, hlist] at hlist'
      cases hlist'
      exact ⟨_, rfl, (mem_erase_of_ne hne).mpr hmem'⟩
    · exact ⟨list', hlist', hmem'⟩
  listed := by
    intro cheapHash' list' hlist'
    rw [DoubleSpendProofStorage.withoutOrphan, lookup_unlist] at hlist'
    split_ifs at hlist' with hsame hemp
    · cases hlist'
      obtain ⟨-, hnd, hall⟩ := h.listed H list hlist
      refine ⟨hemp, hnd.erase id, fun id' hmem => ?_⟩
      obtain ⟨hne, hmem⟩ := (List.Nodup.mem_erase_iff hnd).mp hmem
      obtain ⟨horp, hp⟩ := hall id' hmem
      exact ⟨AList.mem_erase.mpr ⟨hne, horp⟩, hsame ▸ hp⟩
    · obtain ⟨hne, hnd, hall⟩ := h.listed cheapHash' list' hlist'
      refine ⟨hne, hnd, fun id' hmem => ?_⟩
      obtain ⟨horp, p, hp, hchp⟩ := hall id' hmem
      refine ⟨AList.mem_erase.mpr ⟨?_, horp⟩, p, hp, hchp⟩
      -- the id is listed under one hash only, that of its proof
      rintro rfl
      obtain ⟨-, p', hp', hchp'⟩ := (h.listed H list hlist).2.2 id' hid
      rw [hp] at hp'
      cases hp'
      exact hsame (hchp.symm.trans hchp')

theorem Inv.claimOrphan (h : Inv Hash s) (proofId : ℤ) : Inv Hash (s.claimOrphan proofId) := by
  rw [DoubleSpendProofStorage.claimOrphan]
  split_ifs with horp
  · obtain ⟨p, hp, hlst⟩ := h.orphan_listed proofId horp
    obtain ⟨list, hlist, hmem⟩ := mem_listFor.mp hlst
    cases hfind : s.prevTxIdLookupTable.entries.find? fun e => proofId ∈ e.2 with
    | none =>
      have hnone := find?_eq_none.mp hfind _ (mem_entries.mpr hlist)
      exact absurd hmem (by simpa using hnone)
    | some e =>
      have hent := mem_entries.mp (mem_of_find?_eq_some hfind)
      have hin : proofId ∈ e.2 := by
        have := find?_some hfind
        simpa using this
      exact h.withoutOrphan hent hin
  · exact h

/-- The branches of `remove` for the list of an id are those of `unlist`. -/
theorem unlist_of_mem (hmem : id ∈ list) (table : Table ℕ (List ℤ)) (H : ℕ) :
    (if list.length = 1 then table.erase H else table.insert H (list.erase id)) =
      unlist table H list id := by
  have hlen : list.erase id = [] ↔ list.length = 1 := by
    rw [← length_eq_zero_iff, length_erase_of_mem hmem]
    have := length_pos_of_mem hmem
    omega
  rw [unlist]
  simp only [hlen]

theorem Inv.removeOrphan (h : Inv Hash s) (hprf : s.proofs.lookup id = some proof) :
    Inv Hash (s.removeOrphan proof id) ∧ id ∉ (s.removeOrphan proof id).orphans ∧
      (s.removeOrphan proof id).proofs = s.proofs := by
  rw [DoubleSpendProofStorage.removeOrphan]
  split_ifs with horp
  · obtain ⟨p, hp, hlst⟩ := h.orphan_listed id horp
    cases hprf.symm.trans hp
    obtain ⟨list, hlist, hmem⟩ := mem_listFor.mp hlst
    have hgone : id ∉ s.orphans.erase id := fun hcon => (AList.mem_erase.mp hcon).1 rfl
    refine ⟨?_, hgone, rfl⟩
    simp only [hlist, unlist_of_mem hmem]
    exact h.withoutOrphan hlist hmem
  · exact ⟨h, horp, rfl⟩

theorem Inv.eraseProof (h : Inv Hash s) (hprf : s.proofs.lookup id = some proof)
    (hgone : id ∉ s.orphans) :
    Inv Hash (s.eraseProof Hash proof id) := by
  have hkeep : ∀ id' ≠ id, (s.eraseProof Hash proof id).proofs.lookup id' = s.proofs.lookup id' :=
    fun id' hne => by rw [DoubleSpendProofStorage.eraseProof, lookup_erase, if_neg hne]
  constructor
  · constructor
    · intro hash id' hlk
      simp only [DoubleSpendProofStorage.eraseProof, lookup_erase] at hlk
      split_ifs at hlk with hsame
      obtain ⟨p, hp, hhash⟩ := h.hash_proof hash id' hlk
      refine ⟨p, ?_, hhash⟩
      rw [hkeep id' ?_, hp]
      rintro rfl
      cases hprf.symm.trans hp
      exact hsame hhash.symm
    · intro id' hmem
      obtain ⟨p, hp, hlst⟩ := h.orphan_listed id' hmem
      exact ⟨p, by rw [hkeep id' (fun heq => hgone (heq ▸ hmem)), hp], hlst⟩
    · intro H list hlist
      obtain ⟨hne, hnd, hall⟩ := h.listed H list hlist
      refine ⟨hne, hnd, fun id' hmem => ?_⟩
      obtain ⟨horp, p, hp, hchp⟩ := hall id' hmem
      exact ⟨horp, p, by rw [hkeep id' (fun heq => hgone (heq ▸ horp)), hp], hchp⟩
  · intro id' p hp
    simp only [DoubleSpendProofStorage.eraseProof, lookup_erase] at hp ⊢
    split_ifs at hp with hsame
    have hkn := h.proof_hash id' p hp
    have hne : p.createHash Hash ≠ proof.createHash Hash := by
      intro hcon
      rw [hcon, h.proof_hash id proof hprf] at hkn
      exact hsame (some.inj hkn).symm
    rw [if_neg hne, hkn]

theorem Inv.remove (h : Inv Hash s) (id : ℤ) : Inv Hash (s.remove Hash id) := by
  rw [DoubleSpendProofStorage.remove]
  cases hprf : s.proofs.lookup id with
  | none => exact h
  | some proof =>
    obtain ⟨h1, hgone, hproofs⟩ := h.removeOrphan hprf
    exact h1.eraseProof (by rw [hproofs, hprf]) hgone

variable {now : ℤ}

theorem periodicCleanup_of_fresh
    (h : ∀ id peerId time, s.orphans.lookup id = some (peerId, time) →
      ¬ time ≤ now - SECONDS_TO_KEEP_ORPHANS) :
    s.periodicCleanup Hash now = s := by
  have hfold : ∀ entries : List (Sigma fun _ : ℤ => ℤ × ℤ),
      (∀ e ∈ entries, ¬ e.2.2 ≤ now - SECONDS_TO_KEEP_ORPHANS) →
      entries.foldl (fun s e => if e.2.2 ≤ now - SECONDS_TO_KEEP_ORPHANS then
        remove Hash { s with orphans := s.orphans.erase e.1 } e.1 else s) s = s := by
    intro entries hall
    induction entries with
    | nil => rfl
    | cons e entries ih =>
      obtain ⟨he, hall⟩ := forall_mem_cons.mp hall
      rw [foldl_cons, if_neg he, ih hall]
  exact hfold _ fun e he => h e.1 e.2.1 e.2.2 (mem_entries.mp he)

/-- Removing an id that is not among the orphans leaves the lists alone. -/
theorem remove_of_notMem_orphans (h : id ∉ s.orphans) :
    (s.remove Hash id).prevTxIdLookupTable = s.prevTxIdLookupTable ∧
      (s.remove Hash id).orphans = s.orphans := by
  rw [remove]
  cases s.proofs.lookup id with
  | none => exact ⟨rfl, rfl⟩
  | some proof =>
    simp only [removeOrphan, if_neg h]
    exact ⟨rfl, rfl⟩

/-- The cleanup takes the expired orphans out of their table and leaves them on the lists. -/
theorem periodicCleanup_frame :
    (s.periodicCleanup Hash now).prevTxIdLookupTable = s.prevTxIdLookupTable ∧
      ∀ id peerId time, s.orphans.lookup id = some (peerId, time) →
        time ≤ now - SECONDS_TO_KEEP_ORPHANS → id ∉ (s.periodicCleanup Hash now).orphans := by
  have hfold : ∀ (entries : List (Sigma fun _ : ℤ => ℤ × ℤ)) (t : DoubleSpendProofStorage),
      let t' := entries.foldl (fun s e => if e.2.2 ≤ now - SECONDS_TO_KEEP_ORPHANS then
        remove Hash { s with orphans := s.orphans.erase e.1 } e.1 else s) t
      t'.prevTxIdLookupTable = t.prevTxIdLookupTable ∧ (∀ id ∈ t'.orphans, id ∈ t.orphans) ∧
        ∀ e ∈ entries, e.2.2 ≤ now - SECONDS_TO_KEEP_ORPHANS → e.1 ∉ t'.orphans := by
    intro entries
    induction entries with
    | nil => exact fun t => ⟨rfl, fun _ h => h, fun e he => absurd he not_mem_nil⟩
    | cons e entries ih =>
      intro t
      simp only [foldl_cons]
      by_cases hold : e.2.2 ≤ now - SECONDS_TO_KEEP_ORPHANS
      · rw [if_pos hold]
        have hgone : e.1 ∉ t.orphans.erase e.1 := fun hcon => (AList.mem_erase.mp hcon).1 rfl
        obtain ⟨htab, horps⟩ :=
          @remove_of_notMem_orphans Hash { t with orphans := t.orphans.erase e.1 } e.1 hgone
        obtain ⟨htab', hshrink, hout⟩ := ih (remove Hash { t with orphans := t.orphans.erase e.1 } e.1)
        rw [horps] at hshrink
        refine ⟨htab'.trans htab, fun id hid => (AList.mem_erase.mp (hshrink id hid)).2, ?_⟩
        intro e' he'
        rcases mem_cons.mp he' with rfl | he'
        · exact fun _ hcon => hgone (hshrink _ hcon)
        · exact hout e' he'
      · rw [if_neg hold]
        obtain ⟨htab, hshrink, hout⟩ := ih t
        refine ⟨htab, hshrink, fun e' he' => ?_⟩
        rcases mem_cons.mp he' with rfl | he'
        · exact fun hcon => absurd hcon hold
        · exact hout e' he'
  obtain ⟨htab, -, hout⟩ := hfold s.orphans.entries s
  exact ⟨htab, fun id peerId time hlk hold => hout ⟨id, peerId, time⟩ (mem_entries.mpr hlk) hold⟩

/-- The tables agree behind a cleanup only if no orphan had expired. -/
theorem Inv.not_expires (h : Inv Hash s) (hc : Consistent Hash (s.periodicCleanup Hash now)) :
    ¬ s.Expires (.periodicCleanup, now) := by
  rintro ⟨id, peerId, time, hlk, hold⟩
  obtain ⟨htab, hout⟩ := @periodicCleanup_frame Hash s now
  have horp : id ∈ s.orphans := AList.lookup_isSome.mp (by rw [hlk]; rfl)
  obtain ⟨p, -, hlst⟩ := h.orphan_listed id horp
  obtain ⟨list, hlist, hmem⟩ := mem_listFor.mp hlst
  rw [← htab] at hlist
  exact hout id peerId time hlk hold ((hc.listed _ list hlist).2.2 id hmem).1

/-- What a listed id adds to the answer when its proof is there. -/
def found (s : DoubleSpendProofStorage) (prevOut : OutPoint) (id : ℤ) : List (ℤ × ℤ) :=
  (s.orphanOf prevOut id).getD []

theorem mem_found : (id', peerId) ∈ s.found prevOut id ↔
    id' = id ∧ ∃ time proof, s.orphans.lookup id = some (peerId, time) ∧
      s.proofs.lookup id = some proof ∧
      proof.prevTxId = prevOut.hash ∧ proof.prevOutIndex = Int32.ofNat prevOut.n := by
  rw [found, orphanOf]
  cases hprf : s.proofs.lookup id with
  | none => simp
  | some proof =>
    simp only [map_some, getD_some]
    split_ifs with hspd
    · cases horp : s.orphans.lookup id with
      | none => simp
      | some orphan =>
        obtain ⟨peer, time⟩ := orphan
        simp only [map_some, toList_some, mem_singleton, Prod.mk.injEq, some.injEq]
        constructor
        · rintro ⟨rfl, rfl⟩
          exact ⟨rfl, time, proof, ⟨rfl, rfl⟩, rfl, hspd.2, hspd.1⟩
        · rintro ⟨rfl, -, -, ⟨rfl, -⟩, -⟩
          exact ⟨rfl, rfl⟩
    · simp only [not_mem_nil, false_iff]
      rintro ⟨-, time, p, -, hp, hhash, hix⟩
      cases hp
      exact hspd ⟨hix, hhash⟩

theorem nodup_found (prevOut : OutPoint) (id : ℤ) : (s.found prevOut id).Nodup := by
  rw [found, orphanOf]
  cases s.proofs.lookup id with
  | none => simp
  | some proof =>
    simp only [map_some, getD_some]
    split_ifs
    · cases s.orphans.lookup id <;> simp
    · exact nodup_nil

theorem mapM_orphanOf (h : ∀ id ∈ list, id ∈ s.proofs) :
    list.mapM (s.orphanOf prevOut) = some (list.map (s.found prevOut)) := by
  induction list with
  | nil => rfl
  | cons id list ih =>
    obtain ⟨hid, h⟩ := forall_mem_cons.mp h
    obtain ⟨proof, hprf⟩ := isSome_iff_exists.mp (AList.lookup_isSome.mpr hid)
    have hone : s.orphanOf prevOut id = some (s.found prevOut id) := by simp [found, orphanOf, hprf]
    rw [mapM_cons, hone, ih h]
    rfl

theorem nodup_flatMap_found (h : list.Nodup) : (list.flatMap (s.found prevOut)).Nodup := by
  induction list with
  | nil => exact nodup_nil
  | cons id list ih =>
    obtain ⟨hid, h⟩ := nodup_cons.mp h
    refine nodup_append.mpr ⟨nodup_found prevOut id, ih h, ?_⟩
    rintro ⟨a, peerId⟩ ha b hb rfl
    obtain ⟨id', hid', hmem⟩ := mem_flatMap.mp hb
    have h1 := (mem_found.mp ha).1
    have h2 := (mem_found.mp hmem).1
    exact hid (h1 ▸ h2 ▸ hid')

theorem Consistent.findsOrphans (h : Consistent Hash s) : s.FindsOrphans := by
  intro prevOut
  have hlist : (s.listFor (GetCheapHash prevOut.hash)).Nodup ∧
      ∀ id ∈ s.listFor (GetCheapHash prevOut.hash), id ∈ s.proofs := by
    rw [listFor]
    cases hlk : s.prevTxIdLookupTable.lookup (GetCheapHash prevOut.hash) with
    | none => simp
    | some list =>
      obtain ⟨-, hnd, hall⟩ := h.listed _ list hlk
      refine ⟨hnd, fun id hid => ?_⟩
      obtain ⟨-, p, hp, -⟩ := hall id hid
      exact AList.lookup_isSome.mp (by rw [hp]; rfl)
  refine ⟨(s.listFor (GetCheapHash prevOut.hash)).flatMap (s.found prevOut), ?_,
    nodup_flatMap_found hlist.1, ?_⟩
  · rw [findOrphans, mapM_orphanOf hlist.2]
    rfl
  · intro id peerId
    rw [mem_flatMap]
    constructor
    · rintro ⟨id', -, hmem⟩
      obtain ⟨rfl, hfd⟩ := mem_found.mp hmem
      exact hfd
    · rintro ⟨time, proof, horp, hprf, hhash, hix⟩
      obtain ⟨p, hp, hlst⟩ := h.orphan_listed id (AList.lookup_isSome.mp (by rw [horp]; rfl))
      cases hprf.symm.trans hp
      exact ⟨id, hhash ▸ hlst, mem_found.mpr ⟨rfl, time, proof, horp, hprf, hhash, hix⟩⟩

theorem inv_step (h : Inv Hash s) {c : Call × ℤ} (hc : ¬ s.Expires c) : Inv Hash (s.step Hash c) := by
  obtain ⟨c, now⟩ := c
  cases c with
  | add proof =>
    simp only [step]
    cases hadd : s.add Hash proof with
    | none => exact h
    | some r => exact h.add hadd
  | addOrphan proof peerId =>
    simp only [step]
    cases hadd : s.addOrphan Hash proof peerId now with
    | none => exact h
    | some r => exact h.addOrphan hadd
  | findOrphans prevOut => exact h
  | claimOrphan proofId => exact h.claimOrphan proofId
  | remove id => exact h.remove id
  | periodicCleanup =>
    have hsame : s.periodicCleanup Hash now = s :=
      periodicCleanup_of_fresh fun id peerId time hlk hold => hc ⟨id, peerId, time, hlk, hold⟩
    simp only [step, hsame]
    exact h

theorem Inv.consistent_step_iff (h : Inv Hash s) (c : Call × ℤ) : Consistent Hash (s.step Hash c) ↔
      ¬ s.Expires c := by
  refine ⟨fun hc => ?_, fun hc => (inv_step h hc).toConsistent⟩
  obtain ⟨c, now⟩ := c
  cases c with
  | periodicCleanup => exact h.not_expires hc
  | _ => exact id

/-- The tables agree after every call if and only if no cleanup meets an expired orphan. -/
theorem consistent_along_iff (Hash : Bytes → Uint256) (calls : List (Call × ℤ)) :
    Runs.Along (step Hash) (fun s c => Consistent Hash (s.step Hash c) ∧
      (s.step Hash c).FindsOrphans) empty calls ↔
      Runs.Along (step Hash) (fun s c => ¬ s.Expires c) empty calls := by
  refine Runs.along_congr (Inv Hash) (fun s c h _ => ?_) inv_empty (Runs.along_true _ _)
  have hiff := h.consistent_step_iff c
  exact ⟨⟨fun hc => hiff.mp hc.1, fun hc => ⟨hiff.mpr hc, (hiff.mpr hc).findsOrphans⟩⟩,
    fun hc => inv_step h (hiff.mp hc.1)⟩

def sampleProof (prevTxId : Uint256) (prevOutIndex : Int32) : DoubleSpendProof :=
  let spender (data : UInt8) : Spender := ⟨1, 0, 0, 0, 0, 0, [[data]]⟩
  ⟨prevTxId, prevOutIndex, spender 1, spender 2⟩

/-- An expired orphan stays on its list, and the assertion of `findOrphans` fails. -/
theorem not_consistent_expired :
    let calls := [(Call.addOrphan (sampleProof 7 0) 3, 1000), (.periodicCleanup, 1090)]
    ¬ Runs.Along (step fun _ => 0) (fun s c => Consistent (fun _ => 0) (s.step (fun _ => 0) c) ∧
        (s.step (fun _ => 0) c).FindsOrphans) empty calls ∧
      (calls.foldl (step fun _ => 0) empty).findOrphans ⟨7, 0⟩ = none := by
  have hnone : ([(Call.addOrphan (sampleProof 7 0) 3, 1000), (.periodicCleanup, 1090)].foldl
      (step fun _ => 0) empty).findOrphans
      ⟨7, 0⟩ = none := by decide
  refine ⟨fun h => ?_, hnone⟩
  obtain ⟨answer, hans, -⟩ := h.2.1.2 ⟨7, 0⟩
  exact absurd (hnone.symm.trans hans) (by simp)

end DoubleSpendProofStorage

end FloweeHub
