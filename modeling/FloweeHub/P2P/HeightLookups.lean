import FloweeHub.P2P.ChainLinks

/-! The heights of the blocks. The table from ids to heights never loses an entry, so it describes
the chain as long as no block of it is replaced. -/

namespace FloweeHub.P2P.Blockchain

open Lib Option List Nat

variable {H : BlockHeader → Uint256} {checkpoints : ℕ → Option Uint256} {bc bc' : Blockchain}
  {maxFuture start height i : ℕ} {msg : HeadersMessage} {c : Checking} {header : BlockHeader}
  {headers : List BlockHeader} {t : Table Uint256 ℕ} {id : Uint256}

theorem lookup_insertNew (t : Table Uint256 ℕ) (id id' : Uint256) (height : ℕ) :
    (insertNew t id height).lookup id' =
      if id' = id ∧ t.lookup id = none then some height else t.lookup id' := by
  rw [insertNew]
  cases hold : t.lookup id with
  | some old => simp
  | none =>
    rw [if_neg (by simp), Table.lookup_insert]
    simp

theorem exists_getElem?_cons {first : BlockHeader} {P : ℕ → BlockHeader → Prop} :
    (∃ i header, (first :: headers)[i]? = some header ∧ P i header) ↔
      P 0 first ∨ ∃ i header, headers[i]? = some header ∧ P (i + 1) header := by
  constructor
  · rintro ⟨_ | i, header, hhd, hp⟩
    · cases hhd
      exact .inl hp
    · exact .inr ⟨i, header, hhd, hp⟩
  · rintro (hp | ⟨i, header, hhd, hp⟩)
    · exact ⟨0, first, rfl, hp⟩
    · exact ⟨i + 1, header, hhd, hp⟩

/-- Entries that were there stay, and a new id gets the height of its header. -/
theorem lookup_insertStatic (hnd : (headers.map H).Nodup) :
    (insertStatic H headers start t).lookup id = some height ↔
      t.lookup id = some height ∨ (t.lookup id = none ∧ ∃ i header, headers[i]? = some header ∧
        H header = id ∧ height = start + i) := by
  induction headers generalizing start t with
  | nil => simp [insertStatic]
  | cons first headers ih =>
    rw [map_cons, nodup_cons] at hnd
    obtain ⟨hfst, hnd⟩ := hnd
    rw [insertStatic, ih hnd, lookup_insertNew, exists_getElem?_cons]
    by_cases hid : id = H first
    · subst hid
      have hoth : ∀ i header, headers[i]? = some header → H header ≠ H first := fun i header hhd heq =>
        hfst (heq ▸ mem_map_of_mem (mem_of_getElem? hhd))
      cases hold : t.lookup (H first) with
      | none =>
        simp only [and_self, if_true, some.injEq, reduceCtorEq, false_and, or_false, true_and, false_or]
        constructor
        · rintro rfl
          exact .inl rfl
        · rintro (rfl | ⟨i, header, hhd, heq, -⟩)
          · rfl
          · exact absurd heq (hoth i header hhd)
      | some old => simp
    · have hne : ¬ H first = id := fun h => hid h.symm
      simp only [hid, hne, false_and, if_false, false_or, add_assoc, add_comm 1]

theorem store_snd (chain : List BlockHeader) (t : Table Uint256 ℕ) :
    (store H headers start (chain, t)).2 = insertStatic H headers start t := by
  induction headers generalizing start chain t with
  | nil => rfl
  | cons header headers ih => exact ih ..

/-- Exactly the blocks of the chain are known, with their heights. -/
def LooksUp (createHash : BlockHeader → Uint256) (bc : Blockchain) : Prop :=
  ∀ id, (∀ h ≤ bc.height, createHash (bc.block h) = id → bc.isKnown id = true ∧
    bc.blockHeightFor id = h) ∧
    ((∀ h ≤ bc.height, createHash (bc.block h) ≠ id) → bc.isKnown id = false ∧ bc.blockHeightFor id = -1)

/-- The table has the ids of the chain and no others. -/
structure Exact (createHash : BlockHeader → Uint256) (bc : Blockchain) : Prop extends bc.Shaped where
  lookup_iff : ∀ id h, bc.blockHeight.lookup id = some h ↔ h ≤ bc.height ∧ createHash (bc.block h) = id

theorem Exact.looksUp (h : bc.Exact H) : bc.LooksUp H := by
  intro id
  refine ⟨fun height hle hid => ?_, fun hnone => ?_⟩
  · have hlk := (h.lookup_iff id height).mpr ⟨hle, hid⟩
    have hlt : ¬ bc.longestChain.length ≤ height := by
      rw [h.length_eq]
      exact not_le.mpr (lt_succ_of_le hle)
    rw [isKnown, blockHeightFor, hlk]
    exact ⟨rfl, if_neg hlt⟩
  · have hlk : bc.blockHeight.lookup id = none := by
      by_contra hsome
      obtain ⟨height, hht⟩ := ne_none_iff_exists'.mp hsome
      obtain ⟨hle, hid⟩ := (h.lookup_iff id height).mp hht
      exact hnone height hle hid
    rw [isKnown, blockHeightFor, hlk]
    exact ⟨rfl, rfl⟩

/-- A message that is taken over has every block of the chain again, at the same height. -/
def KeepsBlocks (createHash : BlockHeader → Uint256) (checkpoints : ℕ → Option Uint256)
    (bc : Blockchain) (maxFuture : ℕ) (message : HeadersMessage) : Prop :=
  ∀ startHeight, Taken createHash checkpoints bc maxFuture message startHeight →
    (∀ h, startHeight ≤ h → h ≤ bc.height →
      message.headers[h - startHeight]?.map createHash = some (createHash (bc.block h))) ∧
    (message.headers.map createHash).Nodup ∧
    ∀ i header height, message.headers[i]? = some header →
      bc.blockHeight.lookup (createHash header) = some height → height = startHeight + i

theorem block_of_static (h : i < bc.longestChain.length) (hs : i < bc.staticChain.length) :
    bc.block i = bc.staticChain.getD i emptyHeader := by
  rw [block, if_neg (not_le.mpr h), if_pos hs]

theorem block_of_chain (h : i < bc.longestChain.length) (hs : ¬ i < bc.staticChain.length) :
    bc.block i = bc.longestChain.getD i emptyHeader := by
  rw [block, if_neg (not_le.mpr h), if_neg hs]

section TakeOver

variable (hle : start ≤ bc.longestChain.length)

include hle

theorem takeOver_block_lt (hi : i < start) :
    (bc.takeOver H headers start c).block i = bc.block i := by
  have hlen : i < (bc.takeOver H headers start c).longestChain.length := by
    rw [takeOver_length hle]
    omega
  by_cases hs : i < bc.staticChain.length
  · rw [block_of_static hlen hs, block_of_static (by omega) hs]
    rfl
  · rw [block_of_chain hlen hs, block_of_chain (by omega) hs, takeOver_longestChain hle,
      getD_append _ _ _ _ (by rw [length_take]; omega), getD_eq_getElem?_getD, getElem?_take_of_lt hi,
      getD_eq_getElem?_getD]

/-- At the height of a new header there is now that header, or still a static one. -/
theorem takeOver_block_new (hhd : headers[i]? = some header) :
    (bc.takeOver H headers start c).block (start + i) =
      if start + i < bc.staticChain.length then bc.staticChain.getD (start + i) emptyHeader
        else header := by
  obtain ⟨hlt, -⟩ := List.getElem?_eq_some_iff.mp hhd
  have hlen : start + i < (bc.takeOver H headers start c).longestChain.length := by
    rw [takeOver_length hle]
    omega
  split_ifs with hs
  · exact block_of_static hlen hs
  · rw [block_of_chain hlen hs, takeOver_longestChain hle,
      getD_append_right _ _ _ _ (by rw [length_take]; omega), length_take, Nat.min_eq_left hle,
      Nat.add_sub_cancel_left, getD_eq_getElem?_getD, hhd, getD_some]

end TakeOver

/-- The new headers, where they are those of the chain as far as that goes. -/
structure Covers (createHash : BlockHeader → Uint256) (bc : Blockchain) (headers : List BlockHeader)
    (startHeight : ℕ) :
    Prop where
  start_le : startHeight ≤ bc.longestChain.length
  kept : ∀ h, startHeight ≤ h → h ≤ bc.height →
    headers[h - startHeight]?.map createHash = some (createHash (bc.block h))

variable (h : bc.Covers H headers start)

include h

theorem Covers.length_le (hsp : bc.Shaped) : bc.longestChain.length ≤ start + headers.length := by
  have hlen := hsp.length_eq
  by_cases hend : start ≤ bc.height
  · have hlast := h.kept bc.height hend le_rfl
    obtain ⟨header, hhd, -⟩ := map_eq_some_iff.mp hlast
    obtain ⟨hlt, -⟩ := List.getElem?_eq_some_iff.mp hhd
    have hht : bc.height = bc.tip.height := rfl
    omega
  · have hht : bc.height = bc.tip.height := rfl
    omega

theorem Covers.hash_block_new (hsp : bc.Shaped) (hhd : headers[i]? = some header) :
    H ((bc.takeOver H headers start c).block (start + i)) = H header := by
  rw [takeOver_block_new h.start_le hhd]
  split_ifs with hs
  · have hlen := hsp.static_le
    have hkept := h.kept (start + i) (Nat.le_add_right ..) (by
      have := hsp.length_eq
      show start + i ≤ bc.tip.height
      omega)
    rw [Nat.add_sub_cancel_left, hhd, block_of_static (by omega) hs] at hkept
    exact (some.inj hkept).symm
  · rfl

theorem Covers.lookup_iff (hex : bc.Exact H) (hnd : (headers.map H).Nodup)
    (hsame : ∀ i header height, headers[i]? = some header →
      bc.blockHeight.lookup (H header) = some height →
      height = start + i) : (insertStatic H headers start bc.blockHeight).lookup id = some height ↔
      height < start + headers.length ∧
        H ((bc.takeOver H headers start c).block height) = id := by
  have hsp := hex.toShaped
  have hend := h.length_le hsp
  rw [lookup_insertStatic hnd]
  constructor
  · rintro (hold | ⟨-, i, header, hhd, rfl, rfl⟩)
    · obtain ⟨hin, rfl⟩ := (hex.lookup_iff _ _).mp hold
      have hlt : height < bc.longestChain.length := by
        rw [hsp.length_eq]
        exact lt_succ_of_le hin
      refine ⟨by omega, ?_⟩
      by_cases hbelow : height < start
      · rw [takeOver_block_lt h.start_le hbelow]
      · obtain ⟨header, hhd, hhash⟩ := map_eq_some_iff.mp (h.kept height (not_lt.mp hbelow) hin)
        rw [← hhash, ← h.hash_block_new hsp hhd, Nat.add_sub_cancel' (not_lt.mp hbelow)]
    · obtain ⟨hlt, -⟩ := List.getElem?_eq_some_iff.mp hhd
      exact ⟨by omega, h.hash_block_new hsp hhd⟩
  · rintro ⟨hlt, rfl⟩
    by_cases hbelow : height < start
    · have hst := h.start_le
      have hlen := hsp.length_eq
      rw [takeOver_block_lt h.start_le hbelow]
      exact .inl ((hex.lookup_iff _ _).mpr ⟨show height ≤ bc.tip.height by omega, rfl⟩)
    · obtain ⟨i, rfl⟩ : ∃ i, height = start + i := ⟨height - start, by omega⟩
      have hi : i < headers.length := by omega
      have hhd : headers[i]? = some headers[i] := getElem?_eq_getElem hi
      rw [h.hash_block_new hsp hhd]
      cases hold : bc.blockHeight.lookup (H headers[i]) with
      | none => exact .inr ⟨rfl, i, _, hhd, rfl, rfl⟩
      | some old => exact .inl (by rw [hsame i _ old hhd hold])

omit h

/-- A message that keeps the blocks of the chain keeps the table exact. -/
theorem Exact.processBlockHeaders {outcome : Outcome} (h : bc.Exact H)
    (hok : bc.KeepsBlocks H checkpoints maxFuture msg)
    (hstep : bc.processBlockHeaders H checkpoints maxFuture msg = some (outcome, bc')) :
    bc'.Exact H := by
  rcases processBlockHeaders_cases hstep with ⟨-, rfl⟩ | ⟨-, hct, start, c, hc, hwork, hst, rfl⟩
  · exact h
  obtain ⟨hkept, hnd, hsame⟩ := hok start ⟨hct, c, hc, hwork, hst⟩
  obtain ⟨parent, first, rest, -, hpar, -, rfl⟩ := checkHeaders_ok hc hst
  cases hst
  -- the parent is a block of the chain, as every known block is
  have hle : parent + 1 ≤ bc.longestChain.length := by
    have := ((h.lookup_iff _ _).mp hpar).1
    rw [h.length_eq]
    exact succ_le_succ this
  have hcov : bc.Covers H msg.headers (parent + 1) := ⟨hle, hkept⟩
  have hlast : ∀ h', h' ≤ parent + 1 + msg.headers.length - 1 ↔
      h' < parent + 1 + msg.headers.length := by
    intro h'
    omega
  refine { static_le := ?_, length_eq := ?_, lookup_iff := fun id height => ?_ }
  · rw [takeOver_length hle]
    exact h.static_le.trans (hcov.length_le h.toShaped)
  · rw [takeOver_length hle]
    show parent + 1 + msg.headers.length = parent + 1 + msg.headers.length - 1 + 1
    omega
  · show (store H msg.headers (parent + 1) _).2.lookup id = some height ↔
      height ≤ parent + 1 + msg.headers.length - 1 ∧ _
    rw [store_snd, hlast]
    exact hcov.lookup_iff h hnd hsame

/-- The table before the first message has the ids of the blocks, in their order. -/
theorem lookup_blocks (hnd : (headers.map H).Nodup) :
    (insertStatic H headers 0 ∅).lookup id = some height ↔
      height < headers.length ∧ H (headers.getD height emptyHeader) = id := by
  rw [lookup_insertStatic hnd, AList.lookup_empty]
  simp only [reduceCtorEq, false_or, true_and, zero_add]
  constructor
  · rintro ⟨i, header, hhd, rfl, rfl⟩
    obtain ⟨hlt, -⟩ := List.getElem?_eq_some_iff.mp hhd
    exact ⟨hlt, by rw [List.getD_eq_getElem?_getD, hhd, getD_some]⟩
  · rintro ⟨hlt, hid⟩
    rw [getD_eq_getElem _ _ hlt] at hid
    exact ⟨height, _, getElem?_eq_getElem hlt, hid, rfl⟩

theorem exact_initial {genesis : BlockHeader} {data : List BlockHeader} (remainder : Fin 80)
    (h : StaticOk H genesis data) (hnd : (data.map H).Nodup) :
    (initial H genesis data remainder).Exact H := by
  have hsp := (chained_initial remainder h).toShaped
  -- with or without static headers, the blocks are a list that starts with the genesis block
  obtain ⟨rest, hnd, hblks, htab⟩ : ∃ rest, ((genesis :: rest).map H).Nodup ∧
      (initial H genesis data remainder).blocks = genesis :: rest ∧
      (initial H genesis data remainder).blockHeight = insertStatic H (genesis :: rest) 0 ∅ := by
    rcases h with rfl | ⟨hhead, -⟩
    · rw [initial_nil]
      exact ⟨[], nodup_singleton _, rfl, rfl⟩
    · obtain ⟨rest, rfl⟩ := head?_eq_some_iff.mp hhead
      exact ⟨rest, hnd, blocks_initial_cons .., by rw [initial_cons]; rfl⟩
  have hlen := hsp.length_blocks.trans hsp.length_eq
  refine { toShaped := hsp, lookup_iff := fun id height => ?_ }
  rw [htab, lookup_blocks hnd, hsp.block_eq, hblks, ← hblks, hlen, Nat.lt_succ_iff]
  rfl

/-- The lookups describe the chain after any messages that keep its blocks. -/
theorem looksUp_of_reached {genesis : BlockHeader} {data : List BlockHeader} {remainder : Fin 80}
    (hdata : StaticOk H genesis data) (hnodup : (data.map H).Nodup)
    (h : Reached H checkpoints (KeepsBlocks H checkpoints) (initial H genesis data remainder) bc) :
    bc.LooksUp H := by
  have hex : bc.Exact H := by
    induction h with
    | refl => exact exact_initial remainder hdata hnodup
    | tail _ hstep ih =>
      obtain ⟨maxFuture, msg, outcome, hok, hstep⟩ := hstep
      exact ih.processBlockHeaders hok hstep
  exact hex.looksUp

theorem looksUp_of_reached_static : ∃ bc,
    (initial nonceHash (headerOn 0 1) [headerOn 0 1, headerOn 1 2] 0).processBlockHeaders nonceHash
      (fun _ => none) 0 (messageOf [headerOn 2 3]) = some (.applied, bc) ∧
      bc.LooksUp nonceHash := by
  let bc := initial nonceHash (headerOn 0 1) [headerOn 0 1, headerOn 1 2] 0
  let work := blockProof (headerOn 0 1) + blockProof (headerOn 1 2) + blockProof (headerOn 2 3)
  have hc : bc.checkHeaders nonceHash (fun _ => none) 0 (messageOf [headerOn 2 3]) =
      .ok ⟨3, some 2, 3, work⟩ := by
    decide +kernel
  have hstep : bc.processBlockHeaders nonceHash (fun _ => none) 0 (messageOf [headerOn 2 3]) =
      some (.applied, bc.takeOver nonceHash [headerOn 2 3] 2 ⟨3, some 2, 3, work⟩) :=
    processBlockHeaders_of_checked (by decide) hc (by decide +kernel) rfl
  refine ⟨_, hstep, looksUp_of_reached (.inr ⟨rfl, ?_⟩) (by decide +kernel)
    (.single ⟨0, messageOf [headerOn 2 3], .applied, ?_, hstep⟩)⟩
  · exact List.IsChain.cons_cons rfl (List.IsChain.singleton _)
  · rintro start ⟨-, c, hc', -, hst⟩
    cases hc.symm.trans hc'
    cases hst
    refine ⟨fun h hlo hhi => ?_, by decide +kernel, fun i header height hhd hold => ?_⟩
    · replace hhi : h ≤ bc.height := hhi
      have hht : bc.height = 1 := by decide +kernel
      omega
    · obtain rfl := mem_singleton.mp (mem_of_getElem? hhd)
      have hnew : bc.blockHeight.lookup (nonceHash (headerOn 2 3)) = none := by decide +kernel
      cases hold

/-- Block 2 is replaced by the blocks 3 and 4, and is still known at height 1. -/
theorem replaced_block_is_known :
    ((initial nonceHash (headerOn 0 1) [] 0).handle [[headerOn 1 2], [headerOn 1 3, headerOn 3 4]]).map
      (fun bc => (bc.height, (range 3).map fun h => nonceHash (bc.block h), bc.isKnown 2,
        bc.blockHeightFor 2)) =
      some (2, [1, 3, 4], true, 1) := by
  decide +kernel

end FloweeHub.P2P.Blockchain
