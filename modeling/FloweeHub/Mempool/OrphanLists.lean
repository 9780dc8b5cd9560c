import FloweeHub.Mempool.TxMemPool

/-! The lists of orphans when some have expired. An id that the cleanup left in a list does no harm
to `remove`. -/

namespace FloweeHub.DoubleSpendProofStorage

open Lib UODB List Option

variable {Hash : Bytes → Uint256} {s : DoubleSpendProofStorage} {proof : DoubleSpendProof} {id : ℤ}

/-- Every orphan is in the list of the transaction it spends from. -/
def Listed (s : DoubleSpendProofStorage) : Prop :=
  ∀ id ∈ s.orphans, ∃ proof, s.proofs.lookup id = some proof ∧
    id ∈ s.listFor (GetCheapHash proof.prevTxId)

theorem listed_empty : Listed empty := by
  simp [Listed, empty]

variable (h : Listed s) {s' : DoubleSpendProofStorage} {now peerId : ℤ}

include h

theorem Listed.withProof (hid : id ∉ s.proofs) : Listed (s.withProof Hash proof id) := by
  intro id' hmem
  obtain ⟨p, hp, hlist⟩ := h id' hmem
  exact ⟨p, by rw [lookup_withProof_of_ne (ne_of_lookup hid hp), hp], hlist⟩

theorem Listed.add (hadd : s.add Hash proof = some (s', id)) : Listed s' := by
  rcases add_cases hadd with ⟨rfl, -⟩ | ⟨-, hid, rfl⟩
  · exact h
  · exact h.withProof hid

theorem Listed.register (hprf : s.proofs.lookup id = some proof) :
    Listed (s.register proof id peerId now) := by
  intro id' hmem
  have hlist : ∀ H, (s.register proof id peerId now).listFor H =
      if H = GetCheapHash proof.prevTxId then s.listFor (GetCheapHash proof.prevTxId) ++ [id]
      else s.listFor H := by
    intro H
    rw [listFor, DoubleSpendProofStorage.register, Table.lookup_insert]
    split_ifs <;> rfl
  rcases (AList.mem_insert _).mp hmem with rfl | hmem
  · exact ⟨proof, hprf, by rw [hlist, if_pos rfl]; simp⟩
  · obtain ⟨p, hp, hlst⟩ := h id' hmem
    refine ⟨p, hp, ?_⟩
    rw [hlist]
    split_ifs with hsame
    · rw [hsame] at hlst
      exact mem_append_left _ hlst
    · exact hlst

theorem Listed.addOrphan (hadd : s.addOrphan Hash proof peerId now = some s') : Listed s' := by
  obtain ⟨⟨s1, id⟩, hs1, rfl⟩ := map_eq_some_iff.mp hadd
  simp only
  split_ifs with hid
  · exact h.add hs1
  · rcases add_cases hs1 with ⟨-, hkn⟩ | ⟨-, hnew, rfl⟩
    · exact absurd hkn hid
    · refine (h.withProof hnew).register ?_
      rw [DoubleSpendProofStorage.withProof, Table.lookup_insert, if_pos rfl]

/-- Fewer orphans, and a table that keeps every other id in its lists. -/
theorem Listed.forget {table : Table ℕ (List ℤ)}
    (htab : ∀ H, ∀ id' ∈ s.listFor H, id' ≠ id → ∃ list, table.lookup H = some list ∧ id' ∈ list) :
    Listed { s with orphans := s.orphans.erase id, prevTxIdLookupTable := table } := by
  intro id' hmem
  obtain ⟨hne, hmem⟩ := AList.mem_erase.mp hmem
  obtain ⟨p, hp, hlst⟩ := h id' hmem
  exact ⟨p, hp, mem_listFor.mpr (htab _ id' hlst hne)⟩

omit h

theorem mem_unlist {H cheapHash' : ℕ} {list : List ℤ}
    (hlist : s.prevTxIdLookupTable.lookup H = some list) {id' : ℤ}
    (hmem : id' ∈ s.listFor cheapHash') (hne : id' ≠ id) :
    ∃ list', (unlist s.prevTxIdLookupTable H list id).lookup cheapHash' = some list' ∧ id' ∈ list' := by
  obtain ⟨list', hlist', hmem⟩ := mem_listFor.mp hmem
  rw [lookup_unlist]
  split_ifs with hsame hemp
  · rw [hsame, hlist] at hlist'
    cases hlist'
    have hin := (mem_erase_of_ne hne).mpr hmem
    rw [hemp] at hin
    exact absurd hin not_mem_nil
  · rw [hsame, hlist] at hlist'
    cases hlist'
    exact ⟨_, rfl, (mem_erase_of_ne hne).mpr hmem⟩
  · exact ⟨list', hlist', hmem⟩

variable (h : Listed s)

include h

theorem Listed.claimOrphan (proofId : ℤ) : Listed (s.claimOrphan proofId) := by
  rw [DoubleSpendProofStorage.claimOrphan]
  split_ifs
  · cases hfind : s.prevTxIdLookupTable.entries.find? fun e => proofId ∈ e.2 with
    | none => exact h.forget fun H id' hmem _ => mem_listFor.mp hmem
    | some e =>
      have hent := Table.mem_entries.mp (mem_of_find?_eq_some hfind)
      exact h.forget fun H id' hmem hne => mem_unlist hent hmem hne
  · exact h

theorem Listed.removeAsserts (id : ℤ) : TxMemPool.removeAsserts s id := by
  rw [TxMemPool.removeAsserts]
  cases hprf : s.proofs.lookup id with
  | none => rfl
  | some proof =>
    simp only
    split_ifs with horp
    · obtain ⟨p, hp, hlst⟩ := h id horp
      cases hprf.symm.trans hp
      obtain ⟨queue, hqu, hmem⟩ := mem_listFor.mp hlst
      rw [hqu]
      simp only
      split_ifs with hone
      · obtain ⟨a, rfl⟩ := length_eq_one_iff.mp hone
        rw [mem_singleton.mp hmem, decide_eq_true_eq]
      · exact decide_eq_true hmem
    · rfl

theorem Listed.removeOrphan (hprf : s.proofs.lookup id = some proof) :
    Listed (s.removeOrphan proof id) := by
  rw [DoubleSpendProofStorage.removeOrphan]
  split_ifs with horp
  · obtain ⟨p, hp, hlst⟩ := h id horp
    cases hprf.symm.trans hp
    obtain ⟨queue, hqu, hmem⟩ := mem_listFor.mp hlst
    simp only [hqu, unlist_of_mem hmem]
    exact h.forget fun H id' hin hne => mem_unlist hqu hin hne
  · exact h

theorem Listed.remove (id : ℤ) : Listed (s.remove Hash id) := by
  rw [DoubleSpendProofStorage.remove]
  cases hprf : s.proofs.lookup id with
  | none => exact h
  | some proof =>
    show Listed ((s.removeOrphan proof id).eraseProof Hash proof id)
    intro id' hmem
    obtain ⟨p, hp, hlst⟩ := h.removeOrphan hprf id' hmem
    have hne : id' ≠ id := by
      rintro rfl
      rw [DoubleSpendProofStorage.removeOrphan] at hmem
      split_ifs at hmem with horp
      · exact (AList.mem_erase.mp hmem).1 rfl
      · exact horp hmem
    refine ⟨p, ?_, hlst⟩
    rw [DoubleSpendProofStorage.eraseProof, Table.lookup_erase, if_neg hne]
    exact hp

theorem Listed.periodicCleanup (now : ℤ) : Listed (s.periodicCleanup Hash now) := by
  rw [DoubleSpendProofStorage.periodicCleanup]
  generalize s.orphans.entries = entries
  induction entries generalizing s with
  | nil => exact h
  | cons e entries ih =>
    rw [foldl_cons]
    refine ih ?_
    split_ifs
    · refine Listed.remove ?_ _
      exact h.forget fun H id' hmem _ => mem_listFor.mp hmem
    · exact h

omit h

end FloweeHub.DoubleSpendProofStorage
