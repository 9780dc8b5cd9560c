import FloweeHub.Primitives.TxTokenizer

/-! `Tx::Iterator(block, offsetInBlock)` with an offset taken from a request. It stays in the block
unless it starts in front of it or at its last byte, and one of the two callers lets that through. -/

namespace FloweeHub

/-- The tests of `calculateMessageSize`. -/
def Api.GetTransaction.LetsThrough (size offsetInBlock : ℤ) : Prop := ¬ offsetInBlock < 81 ∧
    ¬ size - 60 < offsetInBlock

/-- The tests of `lookup`. -/
def Api.UtxoFetcher.LetsThrough (size offsetInBlock : ℤ) : Prop := offsetInBlock ≠ 0 ∧
    ¬ size < offsetInBlock

namespace TxTokenizer

/-- `ofBlock` for any offset but zero, in a memory with `before` in front of the block. -/
def iterator (before : Bytes) (offsetInBlock : ℤ) : TxTokenizer :=
  let pos := (before.length + offsetInBlock).toNat
  ⟨none, pos, pos, -1, -1, .End⟩

/-- There are no more tokens than the block has bytes, each is inside the block, and so is `prevTx`
at an end. -/
def Contained (before data : Bytes) (offsetInBlock : ℤ) : Prop :=
  ∀ toks t, Reads (before ++ data) (iterator before offsetInBlock) toks t → toks.length ≤ data.length ∧
    (toks ≠ [] → before.length ≤ t.currentTokenStart ∧ t.currentTokenStart ≤ t.currentTokenEnd ∧
      t.currentTokenEnd ≤ (before ++ data).length) ∧
    ∀ t', t.next (before ++ data) = .ok t' → t'.tag = .End → ∃ s ∈ t'.txStart, before.length ≤ s ∧
      s ≤ t'.currentTokenEnd ∧ t'.currentTokenEnd ≤ (before ++ data).length

/-- What holds behind every token if the first one is inside. -/
structure Inside (data : Bytes) (low : ℕ) (t : TxTokenizer) : Prop where
  regular : t.Regular
  start : low ≤ t.currentTokenStart
  order : t.currentTokenStart ≤ t.currentTokenEnd
  le : t.currentTokenEnd ≤ data.length
  txStart : ∃ s ∈ t.txStart, low ≤ s ∧ s ≤ t.currentTokenEnd

variable {data before : Bytes} {low : ℕ} {off : ℤ} {t t' : TxTokenizer} {toks : List (Component × Bytes)}

theorem inside_of_next (hreg : t.Regular) (hlow : low ≤ t.currentTokenEnd)
    (htx : t.tag = .End ∨ ∃ s ∈ t.txStart, low ≤ s ∧ s ≤ t.currentTokenEnd) (h : t.next data = .ok t')
    (hne : t'.tag ≠ .End) : Inside data low t' ∧ t.currentTokenEnd < t'.currentTokenEnd := by
  rcases next_placed hreg h with ⟨hend, -⟩ | ⟨hmoved, hplaced⟩
  · exact absurd hend hne
  · refine ⟨⟨hmoved.regular, hlow.trans hplaced.start, hplaced.order, hmoved.le, ?_⟩, hmoved.lt⟩
    rcases hplaced.txStart with hs | ⟨htag, hs⟩
    · exact ⟨_, hs, hlow, hmoved.lt.le⟩
    · obtain ⟨s, hmem, hlo, hle⟩ := htx.resolve_left htag
      exact ⟨s, hs ▸ hmem, hlo, hle.trans hmoved.lt.le⟩

theorem Reads.inside (hr : Reads data t toks t') (h : Inside data low t) :
    Inside data low t' ∧ t.currentTokenEnd + toks.length ≤ t'.currentTokenEnd := by
  induction hr with
  | refl t => exact ⟨h, le_rfl⟩
  | step hn hne _ ih =>
    obtain ⟨hin, hlt⟩ := inside_of_next h.regular (h.start.trans h.order) (.inr h.txStart) hn hne
    obtain ⟨hin', hle⟩ := ih hin
    refine ⟨hin', ?_⟩
    rw [List.length_cons]
    omega

/-- The first step: nothing is left, or four bytes are the version. -/
theorem next_iterator (data : Bytes) : (iterator before off).next data =
    let pos := (before.length + off).toNat
    if data.length ≤ pos + 1 then .ok (iterator before off)
    else token data ⟨some pos, pos, pos, -1, -1, .End⟩ 4 .TxVersion := by
  simp [next, iterator]

theorem contained_of_offset (hpos : 0 < off) (hlen : off + 1 < data.length) :
    Contained before data off := by
  intro toks t hr
  have hnext := @next_iterator before off (before ++ data)
  have hmem : (before ++ data).length = before.length + data.length := List.length_append
  rw [if_neg (by omega)] at hnext
  cases hr with
  | refl =>
    refine ⟨Nat.zero_le _, fun h => absurd rfl h, fun t' ht' htag => ?_⟩
    rw [hnext] at ht'
    obtain ⟨-, ⟨⟩⟩ := Lib.Guards.ite_error_eq_ok_iff.mp ht'
    cases htag
  | step hn hne hr =>
    have hlow : before.length ≤ (iterator before off).currentTokenEnd := by
      dsimp only [iterator]
      omega
    obtain ⟨hin, hlt⟩ := inside_of_next (by simp [Regular, iterator]) hlow (.inl rfl) hn hne
    obtain ⟨hin, hle⟩ := hr.inside hin
    have hend := hin.le
    refine ⟨by rw [List.length_cons]; omega, fun _ => ⟨hin.start, hin.order, hend⟩, fun t' ht' htag => ?_⟩
    rcases next_placed hin.regular ht' with ⟨-, hsame, hs⟩ | ⟨hmoved, -⟩
    · rw [hsame, hs]
      obtain ⟨s, hmem, hlo, hle⟩ := hin.txStart
      exact ⟨s, hmem, hlo, hle, hend⟩
    · exact absurd htag hmoved.tag_ne

theorem Contained.bounds (h : Contained before data off) (hfull : 80 < data.length)
    (hbefore : -off ≤ before.length) (hzero : off ≠ 0) : 0 < off ∧ off + 1 < data.length := by
  have hnext := @next_iterator before off (before ++ data)
  have hmem : (before ++ data).length = before.length + data.length := List.length_append
  constructor
  · -- the version would be read in front of the block
    by_contra hneg
    rw [if_neg (by omega), token, if_neg (by dsimp only; omega)] at hnext
    have hlow := ((h _ _ (.step hnext (by rintro ⟨⟩) (.refl _))).2.1 (List.cons_ne_nil _ _)).1
    dsimp only at hlow
    omega
  · -- at the end there is no transaction yet
    by_contra hlast
    rw [if_pos (by omega)] at hnext
    obtain ⟨s, hs, -⟩ := (h _ _ (.refl _)).2.2 _ hnext rfl
    cases hs

/-- What the handlers let through stays in the block exactly if it starts there with a byte behind. -/
theorem contained_iff (hfull : 80 < data.length) (hbefore : -off ≤ before.length)
    (h : Api.GetTransaction.LetsThrough data.length off ∨ Api.UtxoFetcher.LetsThrough data.length off) :
    Contained before data off ↔ 0 < off ∧ off + 1 < data.length := by
  refine ⟨fun hcont => hcont.bounds hfull hbefore ?_, fun ⟨hpos, hlen⟩ => contained_of_offset hpos hlen⟩
  rcases h with h | h
  · have := h.1
    omega
  · exact h.1

theorem contained_behind_header : Contained [] (List.replicate 100 0) 81 :=
  (contained_iff (by decide) (by decide) (.inr ⟨by decide, by decide⟩)).mpr (by decide)

/-- `lookup` lets an offset in front of the block through, and one at its end. -/
theorem not_contained : Api.UtxoFetcher.LetsThrough 100 (-1) ∧
      ¬ Contained [0] (List.replicate 100 0) (-1) ∧
    Api.UtxoFetcher.LetsThrough 100 100 ∧ ¬ Contained [] (List.replicate 100 0) 100 := by
  refine ⟨⟨by decide, by decide⟩, fun h => ?_, ⟨by decide, by decide⟩, fun h => ?_⟩
  · exact absurd (h.bounds (by decide) (by decide) (by decide)).1 (by decide)
  · exact absurd (h.bounds (by decide) (by decide) (by decide)).2 (by decide)

end TxTokenizer

end FloweeHub
