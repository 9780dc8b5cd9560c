import FloweeHub.Validation.Atomicity
import FloweeHub.Validation.HeaderFrame

/-! How far the validated chain goes back. The code means to stop at six blocks, but it measures
from the common ancestor with the *old* header chain, which is the validated tip itself. Proved is
when the limit is kept. -/

namespace FloweeHub.Validation.Engine

open IndexHeap Lib Option

variable {e e' : Engine} {p q new : IndexPtr} {s : StateId} {st : BlockValidationState}
  {ps : Params} {chain : ChainParams} {n : ℕ} {t old : IndexPtr} {r : Engine × String}
  {index : IndexHeap} {e₁ : Engine}

/-- How many blocks from `p` down are not on the header chain. -/
def blocksOff (db : BlocksDB) : ℕ → IndexPtr → ℕ
  | 0, _ => 0
  | n + 1, p =>
    if db.headersChain.Contains db.index p then 0 else 1 + (db p).pprev.elim 0 (blocksOff db n)

/-- How many blocks of a chain the header chain removes. A genesis block stays. -/
def removedBy (db : BlocksDB) (c : Chain) : ℕ :=
  c.elim 0 fun t => if (db t).nHeight ≤ 0 then 0 else blocksOff db ((db t).nHeight.toNat + 1) t

theorem blocksOff_on (h : e.onHeaderChain t) : blocksOff e.db (n + 1) t = 0 := if_pos h

theorem blocksOff_off (h : ¬ e.onHeaderChain t) (hq : (e.db t).pprev = some q) :
    blocksOff e.db (n + 1) t = blocksOff e.db n q + 1 := by
  refine (if_neg h).trans ?_
  rw [hq, elim_some, Nat.add_comm]

theorem disconnectTip_back {r : Bool × Engine} (h : e.disconnectTip p = .ok r) (hr : r.1) :
    ∃ q, (e p).pprev = some q ∧ r.2.blockchain = some q := by
  unfold disconnectTip at h
  dsimp only at h
  split at h
  · cases h
    cases hr
  · cases h
    cases hr
  · split at h <;> cases h
    next q hq => exact ⟨q, hq, rfl⟩

theorem disconnectWhile_walk (h : disconnectWhile n e = .ok e') (ht : e.blockchain = some t) :
    e'.blockchain = e.db.index.walk (blocksOff e.db n t) t := by
  induction n generalizing e t with
  | zero =>
    obtain rfl : e = e' := by simpa [disconnectWhile] using h
    exact ht
  | succ n ih =>
    unfold disconnectWhile at h
    rw [ht] at h
    dsimp only at h
    split_ifs at h with hon
    · cases h
      rw [blocksOff_on hon]
      exact ht
    · split at h
      · cases h
      · split_ifs at h
        obtain ⟨r, hr, hrest⟩ := Guards.bind_eq_ok_iff.mp h
        split_ifs at hrest with hok
        obtain ⟨q, hq, hback⟩ := disconnectTip_back hr hok
        have hrec := ih hrest hback
        rw [disconnectTip_db hr] at hrec
        unfold index at hq
        rw [hrec, blocksOff_off hon hq, IndexHeap.walk, hq, bind_some]

theorem prepareChain_walk (h : e.prepareChain = .ok e') :
    e'.blockchain = e.blockchain.bind (e.db.index.walk (removedBy e.db e.blockchain)) := by
  unfold prepareChain at h
  cases ht : e.blockchain with
  | none =>
    unfold height at h
    rw [ht] at h
    cases h
    rw [ht]
    rfl
  | some t =>
    have hht : e.height = (e.db t).nHeight := by rw [height, ht]; rfl
    rw [hht] at h
    unfold removedBy
    rw [elim_some]
    split_ifs at h ⊢
    · cases h
      exact ht
    · exact disconnectWhile_walk h ht

def headersAfterFailure (s : StateId) (e : Engine) : BlocksDB :=
  match e.states s with
  | none => e.db
  | some st =>
    match st.blockIndex with
    | none => e.db
    | some p =>
      if !st.isCorruptionPossible && st.checkMerkleRoot then
        let db := ((recursivelyMark (e.nextState + 1) e s).blame p st.blockId).db
        if st.ownsIndex then db else (db.appendHeader p).2
      else e.db

/-- The headers once the block has its place. -/
def headersPlaced (chain : ChainParams) (s : StateId) (hasFailed : Bool) (st : BlockValidationState)
    (p : IndexPtr) (e : Engine) : BlocksDB :=
  if hasFailed || (e p).failed then
    if !st.checkValidityOnly && st.checkMerkleRoot then e.headersAfterFailure s else e.db
  else if (e p).nHeight = -1 then e.db
  else ((e.modifyState s fun st => { st with
    flags := e.tipFlags, fetchFees := e.tipFlags.enableValidation ||
      e.fetchFeeForMetaBlocks }).registered chain s st).1.db

/-- The headers after a header or a block has been handled, from the state before. -/
def headersAfter (chain : ChainParams) (s : StateId) (fresh : IndexPtr) (e : Engine) : BlocksDB :=
  match e.states s with
  | none => e.db
  | some st =>
    if st.block.size < 80 then e.db
    else if e.shuttingDown then e.db
    else
      match if st.status.invalid then none else e.beingValidated st.blockId with
      | some _ => e.db
      | none =>
        match if st.checkMerkleRoot then e.db.byHash st.blockId else none with
        | some p =>
          if (e p).failed then e.db
          else if e.onBlockchain p then e.db
          else ((e.modifyState s fun st =>
            { st with blockIndex := some p, ownsIndex := false }).recognise s st p).headersPlaced
            chain s st.status.invalid st p
        | none => (e.createBlockIndexFor chain s fresh st).headersPlaced chain s st.status.invalid st fresh

/-! ### The validated chain follows the headers -/

/-- The validated chain has lost the blocks that the header chain removes, and no others. -/
def Follows (e e' : Engine) : Prop :=
  e'.blockchain = e.blockchain.bind (e.db.index.walk (removedBy e'.db e.blockchain))

/-- An object whose links may still change: it is free memory, or an orphan has it. -/
def Loose (e : Engine) (fresh q : IndexPtr) : Prop :=
  q = fresh ∨ ∃ o ∈ e.orphanBlocks, e.objectOf o = some q

/-- The validated chain is part of the header chain, which has no loose objects in it. -/
structure Contained (e : Engine) (s : StateId) (fresh : IndexPtr) : Prop where
  chain : ∀ t, e.blockchain = some t → e.onHeaderChain t = true
  clear : ∀ tip, e.headerChain = some tip → ∀ n q, e.db.index.walk n tip = some q → ¬ e.Loose fresh q
  newcomer : s ∉ e.orphanBlocks

theorem Contained.ancestor (h : e.Contained s new) (ht : e.blockchain = some t) :
    ∃ old, e.headerChain = some old ∧ e.db.index.GetAncestor old (e.db t).nHeight = some t := by
  have hon := h.chain t ht
  exact bind_eq_some_iff.mp (of_decide_eq_true hon)

theorem GetAncestor_walk {a : IndexPtr} {k : ℤ} (h : index.GetAncestor p k = some a) :
    ∃ n, index.walk n p = some a := by
  unfold IndexHeap.GetAncestor at h
  split_ifs at h
  exact ⟨_, h⟩

section

variable (h : e.Contained s new) (hl : SameLinks (e.Loose new) e e') (ht : e.blockchain = some t)
include h hl ht

theorem Contained.sameWay : SameWay e.db.index e'.db.index t := by
  obtain ⟨old, hold, ha⟩ := h.ancestor ht
  obtain ⟨n, hn⟩ := GetAncestor_walk ha
  exact (hl.sameWay (h.clear old hold)).of_walk hn

/-- Where the old header tip is on a chain, the validated chain is on it, too. -/
theorem Contained.onHeaderChain (hold : e.headerChain = some old) (hon : e'.onHeaderChain old) :
    e'.onHeaderChain t := by
  obtain ⟨old', hold', ha⟩ := h.ancestor ht
  cases hold.symm.trans hold'
  have hway := hl.sameWay (h.clear old hold)
  have ha' : e'.db.index.GetAncestor old (e'.db.index t).nHeight = some t := by
    rw [(h.sameWay hl ht).nHeight, hway.GetAncestor, ha]
  obtain ⟨tip, htip, hanc⟩ := bind_eq_some_iff.mp (of_decide_eq_true hon)
  refine decide_eq_true (bind_eq_some_iff.mpr ⟨tip, htip, ?_⟩)
  exact GetAncestor_trans hanc ha'

/-- While the header chain has its tip, the validated chain is part of it. -/
theorem Contained.same_tip (htip : e'.headerChain = e.headerChain) : e'.onHeaderChain t := by
  obtain ⟨old, hold, ha⟩ := h.ancestor ht
  refine decide_eq_true (bind_eq_some_iff.mpr ⟨old, htip.trans hold, ?_⟩)
  rw [(h.sameWay hl ht).nHeight, (hl.sameWay (h.clear old hold)).GetAncestor, ha]

end

theorem Follows.of_on (hc : e'.blockchain = e.blockchain)
    (hon : ∀ t, e.blockchain = some t → e'.onHeaderChain t) :
    Follows e e' := by
  unfold Follows
  cases ht : e.blockchain with
  | none => rw [hc, ht]; rfl
  | some t =>
    rw [removedBy, elim_some, blocksOff_on (hon t ht), ite_self, hc, ht]
    rfl

theorem Follows.of_prepareChain (h : e.Contained s new) (hl : SameLinks (e.Loose new) e e1)
    (hrun : e1.prepareChain = .ok e') : Follows e e' := by
  have hwalk := prepareChain_walk hrun
  unfold Follows
  rw [hwalk, hl.blockchain, prepareChain_db hrun]
  cases ht : e.blockchain with
  | none => rfl
  | some t => exact (h.sameWay hl ht).walk _

/-- The validated tip is its own common ancestor with the old header chain. -/
theorem lastCommonAncestor_eq
    (h : index.GetAncestor old (index t).nHeight = some t) :
    index.lastCommonAncestor old t = some t := by
  have hle : ¬ (index old).nHeight < (index t).nHeight := by
    unfold IndexHeap.GetAncestor at h
    split_ifs at h with hlt
    omega
  have hold : (if (index t).nHeight < (index old).nHeight then
      index.GetAncestor old (index t).nHeight else some old) = some t := by
    split_ifs with hlt
    · exact h
    · unfold IndexHeap.GetAncestor at h
      split_ifs at h
      rwa [show ((index old).nHeight - (index t).nHeight).toNat = 0 by omega] at h
  unfold lastCommonAncestor
  dsimp only
  rw [if_neg hle, hold, commonFrom, if_pos rfl]

theorem Contained.reorgSize_eq (h : e.Contained s new) (hl : SameLinks (e.Loose new) e e')
    (ht : e.blockchain = some t) (hold : e.headerChain = some old) (hoff : ¬ e'.onHeaderChain t) :
    e'.reorgSize old = 1 := by
  obtain ⟨old', hold', ha⟩ := h.ancestor ht
  cases hold.symm.trans hold'
  have ht' : e'.blockchain = some t := hl.blockchain.trans ht
  have hht : e'.height = (e' t).nHeight := by rw [height, ht']; rfl
  have ha' : e'.db.index.GetAncestor old (e'.db.index t).nHeight = some t := by
    rw [(h.sameWay hl ht).nHeight, (hl.sameWay (h.clear old hold)).GetAncestor, ha]
  unfold reorgSize
  rw [ht']
  dsimp only
  rw [if_neg hoff, lastCommonAncestor_eq ha', elim_some, hht]
  omega

theorem reorganise_follows (h : e.Contained s new) (hl : SameLinks (e.Loose new) e e1)
    (hrun : e1.reorganise ps e.headerChain = .ok e') : Follows e e' ∧ e'.db = e1.db := by
  have hstay (hon : ∀ t, e.blockchain = some t → e1.onHeaderChain t) : Follows e e1 ∧ e1.db = e1.db :=
    ⟨.of_on hl.blockchain hon, rfl⟩
  unfold reorganise at hrun
  cases hold : e.headerChain with
  | none =>
    rw [hold] at hrun
    cases hrun
    refine hstay fun t ht => ?_
    obtain ⟨old, hold', -⟩ := h.ancestor ht
    simp [hold] at hold'
  | some old =>
    rw [hold] at hrun
    dsimp only at hrun
    by_cases honold : e1.onHeaderChain old
    · rw [if_pos honold] at hrun
      cases hrun
      exact hstay fun t ht => h.onHeaderChain hl ht hold honold
    · rw [if_neg honold] at hrun
      by_cases hon : ∀ t, e.blockchain = some t → e1.onHeaderChain t
      · have hzero : e1.reorgSize old = 0 := by
          unfold reorgSize
          rw [hl.blockchain]
          cases ht : e.blockchain with
          | none => rfl
          | some t => exact if_pos (hon t ht)
        rw [hzero, if_neg (by omega), if_neg (by omega)] at hrun
        cases hrun
        exact hstay hon
      · push Not at hon
        obtain ⟨t, ht, hoff⟩ := hon
        rw [h.reorgSize_eq hl ht hold hoff, if_neg (by omega), if_pos (by omega)] at hrun
        obtain ⟨e2, hprep, rfl⟩ := Guards.map_eq_ok_iff.mp hrun
        have hfol : Follows e e2 := .of_prepareChain h hl hprep
        have hdb := prepareChain_db hprep
        exact ⟨hfol, hdb⟩

/-! ### A block that failed -/

theorem bestTip_flag (index : IndexHeap) (c : Chain) (tips : List IndexPtr)
    (h : (BlocksDB.bestTip index c tips).2 = false) : (BlocksDB.bestTip index c tips).1 = c := by
  -- a chain that was replaced has its flag set, and the flag stays
  revert h
  refine List.foldlRecOn (motive := fun r : Chain × Bool => r.2 = false → r.1 = c) tips _
    (fun _ => rfl) ?_
  intro r hr tip _
  split
  · rintro ⟨⟩
  · split_ifs
    · rintro ⟨⟩
    · exact hr

theorem scan_flag (index : IndexHeap) (block : IndexPtr) (valid : Bool) (c : Chain)
    (tips : List IndexPtr) (s s' : BlocksDB.Scan)
    (hs : s.modifyingMainChain = false → s.headersChain = c)
    (h : tips.foldlM (BlocksDB.scanTip index block valid) s = some s') :
    s'.modifyingMainChain = false → s'.headersChain = c := by
  induction tips generalizing s with
  | nil =>
    cases h
    exact hs
  | cons tip tips ih =>
    obtain ⟨s1, hone, hrest⟩ := bind_eq_some_iff.mp h
    refine ih s1 ?_ hrest
    unfold BlocksDB.scanTip at hone
    split_ifs at hone
    · cases hone
      intro hf
      obtain ⟨hmod, hmain⟩ := Bool.or_eq_false_iff.mp hf
      rw [hmain]
      exact hs hmod
    all_goals
      cases hone
      exact hs

/-- When `appendHeader` reports no change, the header chain has its tip. -/
theorem appendHeader_flag (db : BlocksDB) (block : IndexPtr) :
    (db.appendHeader block).1 = false → (db.appendHeader block).2.headersChain = db.headersChain := by
  unfold BlocksDB.appendHeader
  dsimp only
  split
  · exact fun _ => rfl
  · split
    · split
      · exact fun hf => nomatch hf
      · exact bestTip_flag _ _ _
    · split
      · exact fun _ => rfl
      next s hscan =>
        split
        · exact fun hf => nomatch hf
        · intro h
          obtain ⟨hmain, hbest⟩ := Bool.or_eq_false_iff.mp h
          rw [bestTip_flag _ _ _ hbest]
          exact scan_flag _ _ _ _ _ _ s (fun _ => rfl) hscan hmain

theorem blame_links (off : IndexPtr → Prop) (e : Engine) (p : IndexPtr) (id : Uint256) :
    SameLinks off e (e.blame p id) ∧ (e.blame p id).headerChain = e.headerChain := by
  obtain ⟨child, h⟩ := blame_frame e p id
  rw [h]
  exact ⟨⟨fun _ _ => ⟨rfl, rfl⟩, rfl⟩, rfl⟩

section

variable (h : e.Contained s new)
include h

theorem leaveFailed_follows (hl : SameLinks (e.Loose new) e e1)
    (htip : e1.headerChain = e.headerChain) (hrun : e1.leaveFailed p = .ok e') :
    Follows e e' ∧ e'.db = (e1.db.appendHeader p).2 := by
  have hl' : SameLinks (e.Loose new) e { e1 with db := (e1.db.appendHeader p).2 } :=
    hl.trans ⟨fun q _ => by simp only [index, BlocksDB.appendHeader_index, and_self], rfl⟩
  unfold leaveFailed at hrun
  dsimp only at hrun
  split_ifs at hrun with hmv
  · exact ⟨.of_prepareChain h hl' hrun, prepareChain_db hrun⟩
  · cases hrun
    have hsame : (e1.db.appendHeader p).2.headersChain = e1.db.headersChain := by
      cases hflag : (e1.db.appendHeader p).1 with
      | false => exact appendHeader_flag _ _ hflag
      | true =>
        rw [hflag, Bool.true_and, decide_eq_true_eq, not_not] at hmv
        exact hmv.symm
    exact ⟨.of_on hl'.blockchain fun t ht => h.same_tip hl' ht (hsame.trans htip), rfl⟩

theorem handleFailedBlock_follows (hl : SameLinks (e.Loose new) e e1)
    (htip : e1.headerChain = e.headerChain) (hrun : handleFailedBlock s e1 = .ok e') :
    Follows e e' ∧ e'.db = e1.headersAfterFailure s := by
  unfold headersAfterFailure
  cases hs : e1.states s with
  | none =>
    unfold handleFailedBlock at hrun
    rw [hs] at hrun
    cases hrun
    exact ⟨.of_on hl.blockchain fun t ht => h.same_tip hl ht htip, rfl⟩
  | some st =>
    dsimp only
    cases hp : st.blockIndex with
    | none =>
      obtain ⟨states, hmark⟩ := recursivelyMark_frame (e1.nextState + 1) e1 s
      unfold handleFailedBlock at hrun
      simp only [hs, hp, hmark] at hrun
      cases hrun
      have hl' : SameLinks (e.Loose new) e { e1 with states := states } := ⟨hl.links, hl.blockchain⟩
      exact ⟨.of_on hl.blockchain fun t ht => h.same_tip hl' ht htip, rfl⟩
    | some p =>
      obtain ⟨states, hmark, heq⟩ := handleFailedBlock_eq hs hp
      rw [heq] at hrun
      rw [hmark]
      have hl1 : SameLinks (e.Loose new) e { e1 with states := states } := ⟨hl.links, hl.blockchain⟩
      obtain ⟨hbl, hhds⟩ := blame_links (e.Loose new) { e1 with states := states } p st.blockId
      split_ifs at hrun ⊢
      · cases hrun
        exact ⟨.of_on (hl1.trans hbl).blockchain fun t ht =>
          h.same_tip (hl1.trans hbl) ht (hhds.trans htip), rfl⟩
      · exact leaveFailed_follows h (hl1.trans hbl) (hhds.trans htip) hrun
      · cases hrun
        exact ⟨.of_on hl1.blockchain fun t ht => h.same_tip hl1 ht htip, rfl⟩

section

variable (hf : Frame (e.Loose new) s e e1)
include hf

theorem registered_links : SameLinks (e.Loose new) e (e1.registered chain s st).1 := by
  have hadopted : Frame (e.Loose new) s e1 (e1.adoptees s st).1 := by
    refine (Frame.adoption e1).adoptees s st (fun o ho => ?_) (.refl e1)
    have ho := hf.orphans o ho
    have hne : o ≠ s := fun heq => h.newcomer (heq ▸ ho)
    exact ⟨hne, fun p hp => .inr ⟨o, ho, by rw [← hf.objects o hne, hp]⟩⟩
  have hregister : SameLinks (e.Loose new) (e1.adoptees s st).1 (e1.registered chain s st).1 :=
    (SameLinks.register _).foldl (s :: (e1.adoptees s st).2) ((e1.adoptees s st).1, "") (.refl _)
  exact hf.toSameLinks.trans (hadopted.toSameLinks.trans hregister)

theorem acceptHeader_follows (hrun : e1.acceptHeader ps chain s st p = .ok r) :
    Follows e r.1 ∧ r.1.db = (e1.registered chain s st).1.db := by
  obtain ⟨e2, hre, hr⟩ := Guards.map_eq_ok_iff.mp hrun
  rw [hf.headers] at hre
  obtain ⟨hfol, hdb⟩ := reorganise_follows h (registered_links h hf) hre
  have hkeep : r.1.db = e2.db ∧ r.1.blockchain = e2.blockchain := by
    subst hr
    by_cases hnear : (e2 p).nHeight - e2.height ≤ (ps.hardwareConcurrency : ℤ)
    · rw [if_pos hnear]
      obtain ⟨hdb, hcn, -⟩ := foldl_forwardBlock_keeps (s :: (e1.adoptees s st).2) (e2, false, true)
      exact ⟨hdb, hcn⟩
    · rw [if_neg hnear]
      exact ⟨rfl, rfl⟩
  refine ⟨?_, hkeep.1.trans hdb⟩
  unfold Follows at hfol ⊢
  rw [hkeep.1, hkeep.2, hfol]

theorem placeBlock_follows {hasFailed : Bool} (hrun : e1.placeBlock ps chain s hasFailed st p = .ok r) :
    Follows e r.1 ∧ r.1.db = e1.headersPlaced chain s hasFailed st p := by
  have hstay {e2 : Engine} (hdb : e2.db = e1.db) (hc : e2.blockchain = e1.blockchain) : Follows
      e e2 := by
    have hl : SameLinks (e.Loose new) e e2 :=
      ⟨fun q hq => by rw [index, hdb]; exact hf.links q hq, hc.trans hf.blockchain⟩
    exact .of_on hl.blockchain fun t ht => h.same_tip hl ht (by rw [headerChain, hdb]; exact hf.headers)
  unfold placeBlock at hrun
  unfold headersPlaced
  by_cases hfl : (hasFailed || (e1 p).failed) = true
  · split_ifs at hrun ⊢
    · obtain ⟨e2, hhn, rfl⟩ := Guards.map_eq_ok_iff.mp hrun
      exact handleFailedBlock_follows h hf.toSameLinks hf.headers hhn
    · cases hrun
      exact ⟨hstay rfl rfl, rfl⟩
  · rw [if_neg hfl] at hrun ⊢
    change (if (e1 p).nHeight = -1 then _ else _) = _ at hrun
    by_cases hpl : (e1 p).nHeight = -1
    · rw [if_pos hpl] at hrun ⊢
      cases hrun
      split_ifs <;> exact ⟨hstay rfl rfl, rfl⟩
    · rw [if_neg hpl] at hrun ⊢
      exact acceptHeader_follows h (hf.trans (.modifyState _ s _ (.inl rfl))) hrun

end

theorem blockHeaderValidated_follows (hrun : e.blockHeaderValidated ps chain s new = .ok r) :
    Follows e r.1 ∧ r.1.db = e.headersAfter chain s new := by
  have hstay {e2 : Engine} (hdb : e2.db = e.db) (hc : e2.blockchain = e.blockchain) : Follows e e2 :=
    .of_on hc fun t ht => by
      have := h.chain t ht
      unfold onHeaderChain headerChain at this ⊢
      rwa [hdb]
  unfold blockHeaderValidated at hrun
  unfold headersAfter
  cases hs : e.states s with
  | none =>
    rw [hs] at hrun
    cases hrun
    exact ⟨hstay rfl rfl, rfl⟩
  | some st =>
    rw [hs] at hrun
    dsimp only at hrun ⊢
    by_cases hsize : st.block.size < 80
    · rw [if_pos hsize] at hrun ⊢
      cases hrun
      exact ⟨hstay rfl rfl, rfl⟩
    rw [if_neg hsize] at hrun ⊢
    by_cases hdown : e.shuttingDown
    · rw [if_pos hdown] at hrun ⊢
      cases hrun
      exact ⟨hstay rfl rfl, rfl⟩
    rw [if_neg hdown] at hrun ⊢
    cases hbg : (if st.status.invalid then none else e.beingValidated st.blockId) with
    | some t =>
      rw [hbg] at hrun
      cases hrun
      exact ⟨hstay rfl rfl, rfl⟩
    | none =>
      rw [hbg] at hrun
      cases hkn : (if st.checkMerkleRoot then e.db.byHash st.blockId else none) with
      | none =>
        rw [hkn] at hrun
        exact placeBlock_follows h (createBlockIndexFor_frame (.inl rfl) e s st) hrun
      | some p =>
        rw [hkn] at hrun
        change (if (e p).failed then _ else if e.onBlockchain p then _ else _) = _ at hrun
        dsimp only
        split_ifs at hrun ⊢
        · cases hrun
          exact ⟨hstay rfl rfl, rfl⟩
        · cases hrun
          exact ⟨hstay rfl rfl, rfl⟩
        · exact placeBlock_follows h ((Frame.modifyState e s _ (.inl rfl)).trans
            (recognise_frame ..)) hrun

end

/-! ### The limit of six blocks -/

/-- On the way down from `p` each block is one lower than the one before. -/
def Stepped (index : IndexHeap) (p : IndexPtr) : Prop :=
  ∀ n q, index.walk n p = some q → ∀ r, (index q).pprev = some r →
    (index q).nHeight = (index r).nHeight + 1

theorem Stepped.walk (h : Stepped index p) (hq : index.walk n p = some q) :
    (index p).nHeight = (index q).nHeight + n := by
  induction n generalizing q with
  | zero =>
    cases hq
    exact (Int.add_zero _).symm
  | succ n ih =>
    rw [walk_succ] at hq
    obtain ⟨r, hr, hrq⟩ := bind_eq_some_iff.mp hq
    have hone := h n r hr q hrq
    rw [ih hr, hone]
    omega

/-- The validated chain loses at most six blocks, and none if the headers would remove more. -/
def KeepsChain (e e' : Engine) (removed : ℕ) : Prop :=
  (∃ k ≤ 6, e'.blockchain = e.blockchain.bind (e.db.index.walk k)) ∧
    (6 < removed → e'.blockchain = e.blockchain)

/-- The limit is kept exactly when the new header chain leaves it nothing to do. -/
theorem blockHeaderValidated_keeps_iff {r : Engine × String} (h : e.Contained s new)
    (hsteps : ∀ t, e.blockchain = some t → Stepped e.db.index t)
    (hrun : e.blockHeaderValidated ps chain s new = .ok r) :
    KeepsChain e r.1 (removedBy (e.headersAfter chain s new) e.blockchain) ↔
      removedBy (e.headersAfter chain s new) e.blockchain ≤ 6 := by
  obtain ⟨hfol, hdb⟩ := blockHeaderValidated_follows h hrun
  unfold Follows at hfol
  rw [hdb] at hfol
  constructor
  · rintro ⟨-, hsty⟩
    by_contra hmany
    rw [hsty (not_le.mp hmany)] at hfol
    cases ht : e.blockchain with
    | none =>
      rw [ht] at hmany
      exact hmany (Nat.zero_le 6)
    | some t =>
      rw [ht] at hfol hmany
      have := (hsteps t ht).walk hfol.symm
      omega
  · exact fun hfew => ⟨⟨_, hfew, hfol⟩, fun hmany => absurd hfew hmany.not_ge⟩

/-! Seven blocks on top of the genesis block, all of them validated, and a side branch of headers from
block `k` on that is as long. Every block has the work of the limit. -/

def sampleBranches (k q : ℕ) : BlockIndex :=
  if q = 0 then
    { phashBlock := 1, pprev := none, nHeight := 0, nBits := 0x1d00ffff, nChainWork := 0x100010001
      validity := BLOCK_VALID_SCRIPTS }
  else if q ≤ 7 then
    { phashBlock := q + 1, pprev := some (q - 1), nHeight := q, nBits := 0x1d00ffff
      nChainWork := 0x100010001 * (q + 1), validity := BLOCK_VALID_SCRIPTS, haveData := true,
      haveUndo := true }
  else if q ≤ 14 - k then
    { phashBlock := q + 1, pprev := some (if q = 8 then k else q - 1), nHeight := k + q - 7, nBits := 0x1d00ffff
      nChainWork := 0x100010001 * (k + q - 6), validity := BLOCK_VALID_TREE }
  else { phashBlock := 0, pprev := none, nHeight := -1 }

/-- The eighth header of the side branch arrives. -/
def sampleOvertaken (k : ℕ) : Engine :=
  let st : BlockValidationState :=
    { block :=
        { blockId := 100, previousBlockId := 15 - k, nBits := 0x1d00ffff, size := 80,
          transactions := [], walk := [] }
      blockId := 100 }
  { sampleEngine [] st with
    db :=
      { index := sampleBranches k
        byHash := fun id => if 1 ≤ id ∧ id ≤ 15 - k then some (id.toNat - 1) else none
        headersChain := some 7
        headerChainTips := [7, 14 - k] }
    blocks := fun q =>
      some { blockId := q + 1, previousBlockId := q, size := 100, transactions := [], walk := [] }
    undoBlocks := fun q => some (UndoBlockBuilder.build (q + 1) [])
    utxo := { sampleUtxo [] with blockheight := 7, blockId := 8 }
    blockchain := some 7
    tip := some 7
    blocksBeingValidated := [] }

def sampleChain : ChainParams := ⟨1, []⟩

theorem sampleBranches_parent {k q r : ℕ} (hq : q ≤ 7) (h : (sampleBranches k q).pprev = some r) :
    q = r + 1 := by
  unfold sampleBranches at h
  split_ifs at h with h0
  have hr : q - 1 = r := some_inj.mp h
  omega

theorem sampleBranches_walk {k q : ℕ} (h : IndexHeap.walk (sampleBranches k) n 7 = some q) : q ≤ 7 := by
  induction n generalizing q with
  | zero =>
    cases h
    exact le_rfl
  | succ n ih =>
    rw [walk_succ] at h
    obtain ⟨r, hr, hq⟩ := bind_eq_some_iff.mp h
    have := sampleBranches_parent (ih hr) hq
    have := ih hr
    omega

theorem sampleBranches_stepped (k : ℕ) : Stepped (sampleBranches k) 7 := by
  intro _ q hq r hr
  have h7 := sampleBranches_walk hq
  obtain rfl := sampleBranches_parent h7 hr
  cases r with
  | zero => rfl
  | succ r =>
    rw [sampleBranches, if_neg (by omega), if_pos h7, sampleBranches, if_neg (by omega),
      if_pos (by omega)]
    rfl

theorem sampleOvertaken_contained (k : ℕ) : (sampleOvertaken k).Contained 0 15 where
  chain t ht := by
    cases ht
    rfl
  clear tip htip n q hq := by
    cases htip
    rintro (rfl | ⟨o, ho, -⟩)
    · exact absurd (sampleBranches_walk hq) (by decide)
    · cases ho
  newcomer h := by cases h

/-- All seven blocks are lost to a branch from the genesis block. -/
theorem blockHeaderValidated_no_limit :
    (sampleOvertaken 0).Contained 0 15 ∧
    removedBy ((sampleOvertaken 0).headersAfter sampleChain 0 15) (some 7) = 7 ∧
    ∃ r, (sampleOvertaken 0).blockHeaderValidated sampleParams sampleChain 0 15 = .ok r ∧ r.1.blockchain = some 0 ∧
      ¬ KeepsChain (sampleOvertaken 0) r.1 7 := by
  refine ⟨sampleOvertaken_contained 0, by decide, _, rfl, by decide, ?_⟩
  rintro ⟨-, h⟩
  revert h
  decide

theorem blockHeaderValidated_keeps_iff_sample :
    ∃ r, (sampleOvertaken 3).blockHeaderValidated sampleParams sampleChain 0 15 = .ok r ∧
      r.1.blockchain = some 3 ∧ (KeepsChain (sampleOvertaken 3) r.1
          (removedBy ((sampleOvertaken 3).headersAfter sampleChain 0 15)
            (sampleOvertaken 3).blockchain) ↔
        removedBy ((sampleOvertaken 3).headersAfter sampleChain 0 15) (sampleOvertaken 3).blockchain ≤ 6) := by
  refine ⟨_, rfl, by decide, ?_⟩
  refine blockHeaderValidated_keeps_iff (sampleOvertaken_contained 3) (fun t ht => ?_) rfl
  cases ht
  exact sampleBranches_stepped 3

end FloweeHub.Validation.Engine
