import Mathlib.Data.List.Chain
import Mathlib.Data.List.GetD
import FloweeHub.P2P.Blockchain

/-! The chain of headers is linked and its work is the sum of the proofs, after any messages that go
on from a block of the chain behind the static headers. -/

namespace FloweeHub.P2P

open Lib Lib.Guards List Except

/-- The second header names the first. -/
def Links (createHash : BlockHeader → Uint256) (a b : BlockHeader) : Prop :=
  b.hashPrevBlock = createHash a

def totalWork (chain : List BlockHeader) : BitVec 256 := (chain.map blockProof).sum

theorem totalWork_append (a b : List BlockHeader) : totalWork (a ++ b) = totalWork a + totalWork b := by
  rw [totalWork, map_append, sum_append]
  rfl

theorem totalWork_cons (header : BlockHeader) (chain : List BlockHeader) :
    totalWork (header :: chain) = blockProof header + totalWork chain := by
  rfl

namespace Blockchain

variable {H : BlockHeader → Uint256} {checkpoints : ℕ → Option Uint256} {bc bc' : Blockchain}
  {maxFuture count start parent : ℕ} {msg : HeadersMessage} {c c' : Checking} {header : BlockHeader}
  {headers : List BlockHeader} {outcome : Outcome}

theorem checkHash_ok (h : checkHash H checkpoints header c = .ok c') :
    c' = { c with prevHash := H header, height := c.height + 1, chainWork := c.chainWork + blockProof header } := by
  simp only [checkHash, ite_error_eq_ok_iff] at h
  exact (ok.inj h.2.2.2).symm

def workBelow (bc : Blockchain) (parent : ℕ) : BitVec 256 :=
  if bc.tip.height = parent then bc.tip.chainWork else bc.rollback (parent + 1)

theorem branch_ok (h : bc.branch count header c = .ok c') :
    ∃ parent, bc.blockHeight.lookup header.hashPrevBlock = some parent ∧
      c' = { c with startHeight := some (parent + 1), height := parent + 1, chainWork := bc.workBelow parent } := by
  unfold branch at h
  split at h
  · cases h
  · rename_i parent hpar
    refine ⟨parent, hpar, ?_⟩
    rw [workBelow]
    by_cases htip : bc.tip.height = parent
    · rw [if_pos htip] at h ⊢
      exact (ok.inj h).symm
    · rw [if_neg htip] at h ⊢
      simp only [ite_error_eq_ok_iff] at h
      exact (ok.inj h.2.2).symm

theorem checkHeader_first (hc : c.startHeight = none)
    (h : bc.checkHeader H checkpoints maxFuture count c header = .ok c') :
    ∃ parent, bc.blockHeight.lookup header.hashPrevBlock = some parent ∧
      c' = ⟨H header, some (parent + 1), parent + 1 + 1, bc.workBelow parent + blockProof header⟩ := by
  simp only [checkHeader, ite_error_eq_ok_iff, hc, if_true, bind_eq_ok_iff] at h
  obtain ⟨-, d, hd, hc'⟩ := h
  obtain ⟨parent, hpar, rfl⟩ := branch_ok hd
  exact ⟨parent, hpar, checkHash_ok hc'⟩

theorem checkHeader_next (hc : c.startHeight ≠ none)
    (h : bc.checkHeader H checkpoints maxFuture count c header = .ok c') : c.prevHash = header.hashPrevBlock ∧
      c' = ⟨H header, c.startHeight, c.height + 1, c.chainWork + blockProof header⟩ := by
  simp only [checkHeader, ite_error_eq_ok_iff, if_neg hc] at h
  exact ⟨not_not.mp h.2.1, checkHash_ok h.2.2⟩

theorem foldlM_checkHeader_next {last : BlockHeader}
    (h : headers.foldlM (bc.checkHeader H checkpoints maxFuture count) c = .ok c')
    (hc : c.startHeight ≠ none) (hprev : c.prevHash = H last) :
    List.IsChain (Links H) (last :: headers) ∧
      c' = ⟨H (headers.getLastD last), c.startHeight, c.height + headers.length,
        c.chainWork + totalWork headers⟩ := by
  induction headers generalizing c last with
  | nil =>
    obtain rfl := ok.inj h
    refine ⟨List.IsChain.singleton last, ?_⟩
    have hzero : c.chainWork + totalWork [] = c.chainWork := add_zero c.chainWork
    rw [hzero, getLastD_nil, ← hprev]
    rfl
  | cons header headers ih =>
    obtain ⟨d, hd, h⟩ := bind_eq_ok_iff.mp h
    obtain ⟨hlink, rfl⟩ := checkHeader_next hc hd
    obtain ⟨hcn, rfl⟩ := ih h hc rfl
    refine ⟨isChain_cons_cons.mpr ⟨hlink.symm.trans hprev, hcn⟩, ?_⟩
    simp only [getLastD_cons, length_cons, totalWork_cons, add_assoc, Nat.add_comm 1]

/-- A message that passes the checks is a chain that goes on from a known block. -/
theorem checkHeaders_ok (h : bc.checkHeaders H checkpoints maxFuture msg = .ok c)
    (hst : c.startHeight = some start) :
    ∃ parent first rest, msg.headers = first :: rest ∧
      bc.blockHeight.lookup first.hashPrevBlock = some parent ∧ List.IsChain (Links H) msg.headers ∧
      c = ⟨H (msg.headers.getLastD emptyHeader), some (parent + 1), parent + 1 + msg.headers.length,
        bc.workBelow parent + totalWork msg.headers⟩ := by
  obtain ⟨d, hd, h⟩ := bind_eq_ok_iff.mp h
  simp only [ite_error_eq_ok_iff] at h
  cases h.2
  rcases hhds : msg.headers with _ | ⟨first, rest⟩
  · rw [hhds] at hd
    cases hd
    cases hst
  rw [hhds, foldlM_cons] at hd
  obtain ⟨e, he, hd⟩ := bind_eq_ok_iff.mp hd
  obtain ⟨parent, hpar, rfl⟩ := checkHeader_first rfl he
  obtain ⟨hcn, rfl⟩ := foldlM_checkHeader_next hd (by simp) rfl
  refine ⟨parent, first, rest, rfl, hpar, hcn, ?_⟩
  rw [getLastD_cons, length_cons, totalWork_cons, Checking.mk.injEq]
  exact ⟨rfl, rfl, show parent + 1 + 1 + rest.length = _ by omega, add_assoc ..⟩

theorem store_fst {chain : List BlockHeader} {t : Table Uint256 ℕ}
    (h : chain.length = start + headers.length) :
    (store H headers start (chain, t)).1 = chain.take start ++ headers := by
  induction headers generalizing chain t start with
  | nil =>
    rw [store, append_nil, take_of_length_le (by simpa using h.le)]
  | cons header headers ih =>
    rw [length_cons] at h
    have hset : (chain.set start header).take (start + 1) = chain.take start ++ [header] := by
      rw [set_eq_take_append_cons_drop, if_pos (by omega), take_append]
      simp [take_take, Nat.min_eq_left (show start ≤ chain.length by omega)]
    rw [store, ih (by rw [length_set]; omega), hset, append_assoc, singleton_append]

variable (chain : List BlockHeader)

theorem length_resize (size : ℕ) : (resize chain size).length = size := by
  rw [resize, length_append, length_take, length_replicate]
  omega

theorem take_resize_add {chain : List BlockHeader} {size more : ℕ} (h : size ≤ chain.length) :
    (resize chain (size + more)).take size = chain.take size := by
  rw [resize, take_append_of_le_length (by rw [length_take]; omega), take_take,
    Nat.min_eq_left (Nat.le_add_right ..)]

/-- The longest chain after headers were taken over at or below its end. -/
theorem takeOver_longestChain (h : start ≤ bc.longestChain.length) :
    (bc.takeOver H headers start c).longestChain = bc.longestChain.take start ++ headers := by
  rw [takeOver, store_fst (length_resize ..), take_resize_add h]

theorem takeOver_length (h : start ≤ bc.longestChain.length) :
    (bc.takeOver H headers start c).longestChain.length = start + headers.length := by
  rw [takeOver_longestChain h, length_append, length_take, Nat.min_eq_left h]

/-- The blocks that `block` gives, one for each height. -/
def blocks (bc : Blockchain) : List BlockHeader :=
  bc.staticChain ++ bc.longestChain.drop bc.staticChain.length

/-- The static headers have their places in the longest chain, and the tip is its last place. -/
structure Shaped (bc : Blockchain) : Prop where
  static_le : bc.staticChain.length ≤ bc.longestChain.length
  length_eq : bc.longestChain.length = bc.tip.height + 1

theorem Shaped.length_blocks (h : bc.Shaped) : bc.blocks.length = bc.longestChain.length := by
  have := h.static_le
  rw [blocks, length_append, length_drop]
  omega

theorem Shaped.block_eq (h : bc.Shaped) (i : ℕ) : bc.block i = bc.blocks.getD i emptyHeader := by
  have hlen := h.length_blocks
  rw [block]
  by_cases hi : bc.longestChain.length ≤ i
  · rw [if_pos hi, getD_eq_default _ _ (by omega)]
  · rw [if_neg hi, blocks]
    by_cases hstat : i < bc.staticChain.length
    · rw [if_pos hstat, getD_append _ _ _ _ hstat]
    · rw [if_neg hstat, getD_append_right _ _ _ _ (by omega), getD_eq_getElem?_getD,
        getD_eq_getElem?_getD, getElem?_drop, Nat.add_sub_cancel' (by omega)]

theorem Shaped.map_block (h : bc.Shaped) : (range (bc.height + 1)).map bc.block = bc.blocks := by
  have hlen := h.length_blocks
  have hht := h.length_eq
  apply ext_getElem
  · rw [length_map, length_range, hlen, hht]
    rfl
  · intro i _ hi
    rw [getElem_map, getElem_range, h.block_eq, getD_eq_getElem _ _ hi]

/-- The blocks after headers were taken over behind the static ones. -/
theorem takeOver_blocks (hstat : bc.staticChain.length ≤ start) (h : start ≤ bc.longestChain.length) :
    (bc.takeOver H headers start c).blocks = bc.blocks.take start ++ headers := by
  show bc.staticChain ++ (bc.takeOver H headers start c).longestChain.drop bc.staticChain.length = _
  rw [takeOver_longestChain h, drop_append_of_le_length (by rw [length_take]; omega), ← append_assoc,
    blocks, take_append, take_of_length_le hstat, drop_take]

theorem takeOver_shaped (hstat : bc.staticChain.length ≤ start) (h : start ≤ bc.longestChain.length)
    (hpos : 0 < start) (hc : c.height = start + headers.length) :
    (bc.takeOver H headers start c).Shaped := by
  refine ⟨hstat.trans (by rw [takeOver_length h]; omega), ?_⟩
  rw [takeOver_length h]
  show start + headers.length = c.height - 1 + 1
  omega

/-- The chain is linked, and the tip has the hash and the work of the chain. -/
structure Sound (createHash : BlockHeader → Uint256) (bc : Blockchain) : Prop where
  linked : ∀ i, 1 ≤ i → i ≤ bc.height → (bc.block i).hashPrevBlock = createHash (bc.block (i - 1))
  tip_eq : bc.tip.tip = createHash (bc.block bc.height)
  work_eq : bc.tip.chainWork = ((range (bc.height + 1)).map fun i => blockProof (bc.block i)).sum

/-- The invariant: linked headers, and a tip with their work. -/
structure Chained (createHash : BlockHeader → Uint256) (bc : Blockchain) : Prop extends bc.Shaped where
  linked : List.IsChain (Links createHash) bc.blocks
  tip_eq : bc.tip.tip = createHash (bc.blocks.getLastD emptyHeader)
  work_eq : bc.tip.chainWork = totalWork bc.blocks

theorem Chained.sound (h : bc.Chained H) : bc.Sound H := by
  have hsp := h.toShaped
  have hlen := hsp.length_blocks.trans hsp.length_eq
  refine ⟨fun i hpos hi => ?_, ?_, ?_⟩
  · have hi : i < bc.blocks.length := by rw [hlen]; exact Nat.lt_succ_of_le hi
    obtain ⟨j, rfl⟩ : ∃ j, i = j + 1 := ⟨i - 1, by omega⟩
    rw [hsp.block_eq, hsp.block_eq, Nat.add_sub_cancel, getD_eq_getElem _ _ hi,
      getD_eq_getElem _ _ (by omega : j < bc.blocks.length)]
    exact h.linked.getElem j hi
  · rw [h.tip_eq, hsp.block_eq, getLastD_eq_getLast?, getLast?_eq_getElem?, hlen, getD_eq_getElem?_getD]
    rfl
  · rw [h.work_eq, totalWork, ← hsp.map_block, map_map]
    rfl

/-- The message passes the checks with more work than the tip has. -/
def Taken (createHash : BlockHeader → Uint256) (checkpoints : ℕ → Option Uint256) (bc : Blockchain)
    (maxFuture : ℕ) (message : HeadersMessage) (startHeight : ℕ) : Prop :=
  message.count ≤ 2000 ∧ ∃ c, bc.checkHeaders createHash checkpoints maxFuture message = .ok c ∧
    bc.tip.chainWork < c.chainWork ∧ c.startHeight = some startHeight

/-- A message that is taken over goes on from a block at or above the last static header. -/
def GoesOn (createHash : BlockHeader → Uint256) (checkpoints : ℕ → Option Uint256) (bc : Blockchain)
    (maxFuture : ℕ) (message : HeadersMessage) : Prop :=
  ∀ startHeight, Taken createHash checkpoints bc maxFuture message startHeight →
    bc.staticChain.length ≤ startHeight ∧ startHeight ≤ bc.longestChain.length ∧
      ∀ header ∈ message.headers.head?, Links createHash (bc.block (startHeight - 1)) header

/-- All that a message can do to the chain. -/
theorem processBlockHeaders_cases
    (h : bc.processBlockHeaders H checkpoints maxFuture msg = some (outcome, bc')) :
    (outcome ≠ .applied ∧ bc' = bc) ∨ (outcome = .applied ∧ msg.count ≤ 2000 ∧ ∃ start c,
      bc.checkHeaders H checkpoints maxFuture msg = .ok c ∧ bc.tip.chainWork < c.chainWork ∧
      c.startHeight = some start ∧ bc' = bc.takeOver H msg.headers start c) := by
  unfold processBlockHeaders at h
  by_cases hct : 2000 < msg.count
  · rw [if_pos hct] at h
    cases h
    exact .inl ⟨by decide, rfl⟩
  rw [if_neg hct] at h
  split at h
  · cases h
    exact .inl ⟨by decide, rfl⟩
  · cases h
  · rename_i c hc
    by_cases hwork : c.chainWork ≤ bc.tip.chainWork
    · rw [if_pos hwork] at h
      cases h
      exact .inl ⟨by decide, rfl⟩
    · rw [if_neg hwork] at h
      obtain ⟨start, hst, heq⟩ := Option.map_eq_some_iff.mp h
      cases heq
      exact .inr ⟨rfl, not_lt.mp hct, start, c, hc, BitVec.not_le.mp hwork, hst, rfl⟩

theorem foldl_sub_work (work : BitVec 256) :
    chain.reverse.foldl (fun work header => work - blockProof header) work = work - totalWork chain := by
  induction chain with
  | nil => exact (sub_zero work).symm
  | cons header chain ih =>
    rw [reverse_cons, foldl_append, ih, totalWork_cons, foldl_cons, foldl_nil, sub_sub, add_comm]

/-- The work is rolled back to that of the blocks that stay. -/
theorem Chained.workBelow_eq (h : bc.Chained H) (hstat : bc.staticChain.length ≤ parent + 1) :
    bc.workBelow parent = totalWork (bc.blocks.take (parent + 1)) := by
  have hlen := h.toShaped.length_blocks
  have hlast := h.length_eq
  rw [workBelow]
  split_ifs with htip
  · rw [h.work_eq, take_of_length_le (by omega)]
  · have hdrop : (bc.longestChain.take (bc.tip.height + 1)).drop (parent + 1) = bc.blocks.drop (parent + 1) := by
      rw [take_of_length_le hlast.le, blocks, drop_append, drop_of_length_le hstat, nil_append,
        drop_drop, Nat.add_sub_cancel' hstat]
    rw [rollback, hdrop, foldl_sub_work, h.work_eq]
    nth_rewrite 1 [← take_append_drop (parent + 1) bc.blocks]
    rw [totalWork_append, add_sub_cancel_right]

/-- Headers that go on from a block of the chain make it a new chain. -/
theorem Chained.processBlockHeaders (h : bc.Chained H) (hok : bc.GoesOn H checkpoints maxFuture msg)
    (hstep : bc.processBlockHeaders H checkpoints maxFuture msg = some (outcome, bc')) :
    bc'.Chained H := by
  rcases processBlockHeaders_cases hstep with ⟨-, rfl⟩ | ⟨-, hct, start, c, hc, hwork, hst, rfl⟩
  · exact h
  obtain ⟨hstat, hle, hlink⟩ := hok start ⟨hct, c, hc, hwork, hst⟩
  obtain ⟨parent, first, rest, hhds, -, hcn, rfl⟩ := checkHeaders_ok hc hst
  cases hst
  have hlen := h.toShaped.length_blocks
  refine { toShaped := takeOver_shaped hstat hle (Nat.succ_pos _) rfl, linked := ?_, tip_eq := ?_, work_eq := ?_ }
  · rw [takeOver_blocks hstat hle]
    refine isChain_append.mpr ⟨h.linked.take _, hcn, fun last hlast header hhd => ?_⟩
    have hblk : bc.block parent = last := by
      rw [getLast?_eq_getElem?, length_take, Nat.min_eq_left (by omega), Nat.add_sub_cancel,
        getElem?_take_of_lt (Nat.lt_succ_self _)] at hlast
      rw [h.toShaped.block_eq, getD_eq_getElem?_getD, Option.mem_def.mp hlast, Option.getD_some]
    exact hblk ▸ hlink header hhd
  · rw [takeOver_blocks hstat hle]
    show H (msg.headers.getLastD emptyHeader) = _
    rw [getLastD_eq_getLast?, getLastD_eq_getLast?, getLast?_append, hhds, getLast?_cons, Option.some_or]
  · rw [takeOver_blocks hstat hle, totalWork_append, ← h.workBelow_eq hstat]
    rfl

/-- A linked chain that starts with the genesis block, or none at all. -/
def StaticOk (createHash : BlockHeader → Uint256) (genesis : BlockHeader)
    (data : List BlockHeader) : Prop :=
  data = [] ∨ (data.head? = some genesis ∧ List.IsChain (Links createHash) data)

def initial (createHash : BlockHeader → Uint256) (genesis : BlockHeader) (data : List BlockHeader)
    (remainder : Fin 80) :
    Blockchain :=
  (createGenericGenesis createHash genesis).loadStaticChain createHash data remainder

theorem foldl_add_work (work : BitVec 256) : (chain.map blockProof).foldl (· + ·) work = work + totalWork chain := by
  induction chain generalizing work with
  | nil => exact (add_zero work).symm
  | cons header chain ih => rw [map_cons, foldl_cons, ih, totalWork_cons, add_assoc]

variable (H)

/-- Static headers that start with the genesis block are taken. -/
theorem initial_cons (genesis : BlockHeader) (rest : List BlockHeader) (remainder : Fin 80) :
    initial H genesis (genesis :: rest) remainder =
      { longestChain := resize [genesis] (rest.length + 1)
        blockHeight := insertStatic H rest 1 (insertNew ∅ (H genesis) 0)
        tip := ⟨H (rest.getLastD genesis), rest.length, blockProof genesis + totalWork rest⟩
        staticChain := genesis :: rest } := by
  rw [initial, loadStaticChain, if_neg (by simp [createGenericGenesis]), if_neg (cons_ne_nil _ _), tail_cons,
    foldl_add_work, getLastD_cons]
  rfl

theorem blocks_initial_cons (genesis : BlockHeader) (rest : List BlockHeader)
    (remainder : Fin 80) : (initial H genesis (genesis :: rest) remainder).blocks = genesis :: rest := by
  rw [initial_cons]
  show genesis :: rest ++ (resize [genesis] (rest.length + 1)).drop (rest.length + 1) = genesis :: rest
  rw [drop_of_length_le (length_resize ..).le, append_nil]

theorem initial_nil (genesis : BlockHeader) (remainder : Fin 80) :
    initial H genesis [] remainder = createGenericGenesis H genesis := by
  have hsh : ¬ 80 < 80 * ([] : List BlockHeader).length + remainder := by
    rw [length_nil]
    omega
  rw [initial, loadStaticChain, if_neg fun h => hsh h.1, if_pos rfl]

variable {H}

theorem chained_initial {genesis : BlockHeader} {data : List BlockHeader} (remainder : Fin 80)
    (h : StaticOk H genesis data) : (initial H genesis data remainder).Chained H := by
  rcases h with rfl | ⟨hhead, hlink⟩
  · rw [initial_nil]
    exact {
      static_le := Nat.zero_le _
      length_eq := rfl
      linked := .singleton _
      tip_eq := rfl
      work_eq := (add_zero _).symm }
  · obtain ⟨rest, rfl⟩ := head?_eq_some_iff.mp hhead
    have hlen := length_resize [genesis] (rest.length + 1)
    have hblks := blocks_initial_cons H genesis rest remainder
    have hlinked := hblks.symm ▸ hlink
    refine { static_le := ?_, length_eq := ?_, linked := hlinked, tip_eq := ?_, work_eq := ?_ }
    · rw [initial_cons]
      exact hlen.ge
    · rw [initial_cons]
      exact hlen
    · rw [hblks, initial_cons, getLastD_cons]
    · rw [hblks, initial_cons, totalWork_cons]

/-- The work never gets less, and a message for which the peer is reported changes nothing. -/
theorem processBlockHeaders_keeps
    (h : bc.processBlockHeaders H checkpoints maxFuture msg = some (outcome, bc')) :
    bc.tip.chainWork ≤ bc'.tip.chainWork ∧ (outcome = .rejected → bc' = bc) := by
  rcases processBlockHeaders_cases h with ⟨-, rfl⟩ | ⟨rfl, -, start, c, -, hwork, -, rfl⟩
  · exact ⟨BitVec.le_refl _, fun _ => rfl⟩
  · exact ⟨BitVec.le_of_lt hwork, nofun⟩

/-- The chain is sound after any messages that go on from its blocks; the next one does not lower
the work, and changes nothing when the peer is reported. -/
theorem sound_of_reached {genesis : BlockHeader} {data : List BlockHeader} {remainder : Fin 80}
    (hdata : StaticOk H genesis data)
    (h : Reached H checkpoints (GoesOn H checkpoints) (initial H genesis data remainder) bc) :
    bc.Sound H ∧ ∀ maxFuture msg outcome bc',
      bc.processBlockHeaders H checkpoints maxFuture msg = some (outcome, bc') →
        bc.tip.chainWork ≤ bc'.tip.chainWork ∧ (outcome = .rejected → bc' = bc) := by
  have hchained : bc.Chained H := by
    induction h with
    | refl => exact chained_initial remainder hdata
    | tail _ hstep ih =>
      obtain ⟨maxFuture, msg, outcome, hok, hstep⟩ := hstep
      exact ih.processBlockHeaders hok hstep
  exact ⟨hchained.sound, fun _ _ _ _ => processBlockHeaders_keeps⟩

def nonceHash (header : BlockHeader) : Uint256 := BitVec.ofNat 256 header.nNonce

def headerOn (parent nonce : ℕ) : BlockHeader := ⟨1, BitVec.ofNat 256 parent, 1, 0, 0x1d00ffff, nonce⟩

def messageOf (headers : List BlockHeader) : HeadersMessage := ⟨headers.length, headers, le_rfl⟩

/-- Messages one after the other, without checkpoints. -/
def handle (bc : Blockchain) (messages : List (List BlockHeader)) : Option Blockchain :=
  messages.foldlM (fun bc headers =>
    (bc.processBlockHeaders nonceHash (fun _ => none) 0 (messageOf headers)).map Prod.snd) bc

theorem handle_cons {headers : List BlockHeader} {messages : List (List BlockHeader)}
    (hstep : bc.processBlockHeaders nonceHash (fun _ => none) 0 (messageOf headers) =
      some (outcome, bc')) :
    bc.handle (headers :: messages) = bc'.handle messages := by
  rw [handle, List.foldlM_cons, hstep]
  rfl

theorem processBlockHeaders_of_checked {c : Checking} {start : ℕ} (hct : msg.count ≤ 2000)
    (hc : bc.checkHeaders H checkpoints maxFuture msg = .ok c) (hwork : bc.tip.chainWork < c.chainWork)
    (hst : c.startHeight = some start) :
    bc.processBlockHeaders H checkpoints maxFuture msg =
      some (.applied, bc.takeOver H msg.headers start c) := by
  rw [processBlockHeaders, if_neg hct.not_gt, hc]
  dsimp only
  rw [if_neg (BitVec.not_le.mpr hwork), hst, Option.map_some]

theorem goesOn_of_checked {c : Checking} {start : ℕ}
    (hc : bc.checkHeaders H checkpoints maxFuture msg = .ok c) (hst : c.startHeight = some start)
    (hstatic : bc.staticChain.length ≤ start) (hle : start ≤ bc.longestChain.length)
    (hlink : ∀ header ∈ msg.headers.head?, Links H (bc.block (start - 1)) header) :
    bc.GoesOn H checkpoints maxFuture msg := by
  rintro start' ⟨-, c', hc', -, hst'⟩
  cases hc.symm.trans hc'
  cases hst.symm.trans hst'
  exact ⟨hstatic, hle, hlink⟩

/-- Block 2 comes first; then blocks 3 and 4 replace it. -/
theorem sound_of_reached_replaced : ∃ bc,
    (initial nonceHash (headerOn 0 1) [] 0).handle [[headerOn 1 2], [headerOn 1 3, headerOn 3 4]] =
      some bc ∧ bc.height = 2 ∧ bc.Sound nonceHash := by
  let c₁ : Checking := ⟨2, some 1, 2, blockProof (headerOn 0 1) + blockProof (headerOn 1 2)⟩
  let c₂ : Checking := ⟨4, some 1, 3, blockProof (headerOn 0 1) + blockProof (headerOn 1 3) +
    blockProof (headerOn 3 4)⟩
  let bc₀ := initial nonceHash (headerOn 0 1) [] 0
  let bc₁ := bc₀.takeOver nonceHash [headerOn 1 2] 1 c₁
  let bc₂ := bc₁.takeOver nonceHash [headerOn 1 3, headerOn 3 4] 1 c₂
  have hc₁ : bc₀.checkHeaders nonceHash (fun _ => none) 0 (messageOf [headerOn 1 2]) = .ok c₁ := by
    decide +kernel
  have hc₂ : bc₁.checkHeaders nonceHash (fun _ => none) 0 (messageOf [headerOn 1 3, headerOn 3 4]) =
      .ok c₂ := by
    decide +kernel
  have hstep₁ : bc₀.processBlockHeaders nonceHash (fun _ => none) 0 (messageOf [headerOn 1 2]) =
      some (.applied, bc₁) := processBlockHeaders_of_checked (by decide) hc₁ (by decide +kernel) rfl
  have hstep₂ : bc₁.processBlockHeaders nonceHash (fun _ => none) 0
      (messageOf [headerOn 1 3, headerOn 3 4]) =
      some (.applied, bc₂) := processBlockHeaders_of_checked (by decide) hc₂ (by decide +kernel) rfl
  have hgo₁ : bc₀.GoesOn nonceHash (fun _ => none) 0 (messageOf [headerOn 1 2]) := by
    refine goesOn_of_checked hc₁ rfl (by decide +kernel) (by decide +kernel) fun header hhd => ?_
    cases hhd
    exact show (headerOn 1 2).hashPrevBlock = nonceHash (bc₀.block 0) by decide +kernel
  have hgo₂ : bc₁.GoesOn nonceHash (fun _ => none) 0 (messageOf [headerOn 1 3, headerOn 3 4]) := by
    refine goesOn_of_checked hc₂ rfl (by decide +kernel) (by decide +kernel) fun header hhd => ?_
    cases hhd
    exact show (headerOn 1 3).hashPrevBlock = nonceHash (bc₁.block 0) by decide +kernel
  have hreached : Reached nonceHash (fun _ => none) (GoesOn nonceHash fun _ => none) bc₀ bc₂ :=
    .tail (.single ⟨0, _, .applied, hgo₁, hstep₁⟩) ⟨0, _, .applied, hgo₂, hstep₂⟩
  refine ⟨bc₂, ?_, by decide +kernel, (sound_of_reached (.inl rfl) hreached).1⟩
  rw [handle_cons hstep₁, handle_cons hstep₂]
  rfl

/-- Blocks 3 and 4 replace block 2, and two blocks on top of block 2 then come in behind block 3.
And a static block that comes again is counted twice. -/
theorem stale_parent_unlinks :
    ((initial nonceHash (headerOn 0 1) [] 0).handle
      [[headerOn 1 2], [headerOn 1 3, headerOn 3 4], [headerOn 2 5, headerOn 5 6]]).map
        (fun bc => (bc.height, (bc.block 2).hashPrevBlock, nonceHash (bc.block 1))) = some (3, 2, 3) ∧
    ((initial nonceHash (headerOn 0 1) [headerOn 0 1, headerOn 1 2] 0).handle [[headerOn 1 2]]).map
        (fun bc => (bc.height, bc.tip.chainWork)) =
      some (1, blockProof (headerOn 0 1) + blockProof (headerOn 1 2) + blockProof (headerOn 1 2)) := by
  decide +kernel

end Blockchain

end FloweeHub.P2P
