import FloweeHub.Validation.Checks1
import FloweeHub.Validation.HeaderFrame

/-! A block that arrives gets a new state, is looked at by itself and is then placed among the
headers. A state that nothing holds is destroyed, with an index object that is still its own. -/

namespace FloweeHub.Validation

open Function

/-- The error of the step, the error of the state, and whether the block is invalid. -/
structure Verdict where
  told : String
  error : String
  invalid : Bool
deriving DecidableEq, Repr

def freeMemory : BlockIndex := { phashBlock := 0, pprev := none, nHeight := 0 }

namespace BlockValidationState

/-- A weak pointer to a state that is gone can not be locked. -/
def dropChild (s : StateId) (st : BlockValidationState) : BlockValidationState :=
  { st with chainChildren := st.chainChildren.filter (· ≠ s) }

def setInvalid (st : BlockValidationState) : BlockValidationState :=
  { st with status := { st.status with invalid := true } }

end BlockValidationState

namespace Engine

open IndexHeap Lib BlockValidationState Option Bool

variable (e : Engine)

variable (s : StateId)

/-- The destructor of a state runs when nothing holds the state any more. -/
def release (fresh : IndexPtr) : Engine :=
  if e.alive s then e
  else { e with
    states := fun t => if t = s then none else (e.states t).map (dropChild s)
    db := if (e.states s).any ownsIndex then
        { e.db with index := e.db.index.modify fresh fun _ => freeMemory }
      else e.db }

def verdict (told : String) : Verdict :=
  (e.states s).elim ⟨told, "", false⟩ fun st => ⟨told, st.error, st.status.invalid⟩

def newState (st : BlockValidationState) : Engine := { e with states := update e.states s (some st) }

@[simp] theorem newState_self (st : BlockValidationState) : (e.newState s st).states s = some st :=
  update_self ..

/-- A block arrives: `checks1NoContext`, `blockHeaderValidated` and the end of the state. -/
def receive (params : Params) (chain : ChainParams) (env : Checks1Env) (data : Bytes)
    (st : BlockValidationState) (s : StateId) (fresh : IndexPtr) (e : Engine) :
    Except String (Engine × Verdict) :=
  ((e.newState s (st.checks1NoContext env data)).blockHeaderValidated params chain s fresh).map fun r =>
    (r.1.release s fresh, r.1.verdict s r.2)

/-- Neither the name `s` nor the memory `fresh` is in use. -/
structure Vacant (e : Engine) (s : StateId) (fresh : IndexPtr) : Prop where
  state : e.states s = none
  dead : e.alive s = false
  child : ∀ t st, e.states t = some st → s ∉ st.chainChildren
  memory : e.index fresh = freeMemory
  parent : ∀ q, (e q).pprev ≠ some fresh
  tip : fresh ∉ e.db.headerChainTips
  found : ∀ id, e.findPrev id ≠ some fresh

variable {e e' : Engine} {s : StateId} {new p : IndexPtr} {st : BlockValidationState}
  {chain : ChainParams} {ps : Params}

/-! ### What a state leaves behind -/

/-- The engine without the state and without the memory. -/
def forget (s : StateId) (fresh : IndexPtr) (e : Engine) : Engine :=
  { e with
    states := fun t => if t = s then none else (e.states t).map (dropChild s)
    db := { e.db with index := e.db.index.modify fresh fun _ => freeMemory } }

theorem modify_modify (index : IndexHeap) (p : IndexPtr) (f g : BlockIndex → BlockIndex) :
    (index.modify p f).modify p g = index.modify p (g ∘ f) := by
  unfold IndexHeap.modify
  rw [update_self, update_idem]
  rfl

theorem modify_const (index : IndexHeap) (p : IndexPtr) (b : BlockIndex) (h : index p = b) :
    index.modify p (fun _ => b) = index := by
  rw [IndexHeap.modify, ← h, update_eq_self]

theorem Vacant.forget (h : e.Vacant s new) : e.forget s new = e := by
  have hsts : (fun t => if t = s then none else (e.states t).map (dropChild s)) = e.states := by
    funext t
    split_ifs with ht
    · rw [ht, h.state]
    · cases hst : e.states t with
      | none => rfl
      | some st =>
        have hfilter : st.chainChildren.filter (· ≠ s) = st.chainChildren :=
          List.filter_eq_self.mpr fun c hc => decide_eq_true fun hcs => h.child t st hst (hcs ▸ hc)
        rw [map_some, dropChild, hfilter]
  have hmem : e.db.index new = freeMemory := h.memory
  unfold Engine.forget
  rw [hsts, modify_const _ _ _ hmem]

theorem release_utxo (e : Engine) (s : StateId) (new : IndexPtr) : (e.release s new).utxo = e.utxo := by
  unfold release
  split_ifs <;> rfl

/-- Without an object of its own the state takes nothing of the index along. -/
theorem release_db (new : IndexPtr) (h : (e.states s).any ownsIndex = false) :
    (e.release s new).db = e.db ∧ (e.release s new).blocksBeingValidated = e.blocksBeingValidated ∧
      (e.release s new).shuttingDown = e.shuttingDown := by
  unfold release
  split_ifs with halive hown
  · exact ⟨rfl, rfl, rfl⟩
  · rw [h] at hown
    cases hown
  · exact ⟨rfl, rfl, rfl⟩

theorem verdict_told (e : Engine) (s : StateId) (told : String) : (e.verdict s told).told = told := by
  unfold verdict
  cases e.states s <;> rfl

theorem release_eq_forget (hdead : e.alive s = false)
    (hown : (e.states s).any ownsIndex ∨ e.index new = freeMemory) :
    e.release s new = e.forget s new := by
  unfold release forget
  rw [if_neg (by simp [hdead])]
  split_ifs with h
  · rfl
  · have hmem : e.db.index new = freeMemory := hown.resolve_left h
    rw [modify_const _ _ _ hmem]

variable (e)

@[simp] theorem forget_newState (st : BlockValidationState) :
    (e.newState s st).forget s new = e.forget s new := by
  unfold newState forget
  congr 1
  funext t
  dsimp only
  split_ifs with ht
  · rfl
  · rw [update_of_ne ht]

@[simp] theorem forget_modifyState (s : StateId) (new : IndexPtr) (e : Engine)
    (f : BlockValidationState → BlockValidationState) :
    (e.modifyState s f).forget s new = e.forget s new := by
  unfold modifyState forget
  congr 1
  funext t
  dsimp only
  split_ifs with ht
  · rfl
  · rw [update_of_ne ht]

@[simp] theorem forget_addChild (t : StateId) : (e.addChild t s).forget s new = e.forget s new := by
  unfold addChild modifyState forget
  congr 1
  funext u
  dsimp only
  split_ifs with hu
  · rfl
  · by_cases hut : u = t
    · subst hut
      rw [update_self, map_map]
      congr 1
      funext st
      simp [dropChild]
    · rw [update_of_ne hut]

@[simp] theorem forget_modifyIndex (s : StateId) (new : IndexPtr) (e : Engine)
    (f : BlockIndex → BlockIndex) :
    (e.modifyIndex new f).forget s new = e.forget s new := by
  unfold modifyIndex forget
  rw [modify_modify]
  rfl

/-- All that `connect` changes is the object that is put on top of the other. -/
theorem connect_eq (p q : IndexPtr) : ∃ skip, e.connect p q = e.modifyIndex p fun b => { b with
    pprev := some q
    pskip := skip
    nHeight := (e q).nHeight + 1
    nChainWork := (e q).nChainWork + GetBlockProof b.nBits } := by
  unfold connect modifyIndex
  dsimp only
  rw [BuildSkip, modify_self]
  dsimp only
  rw [modify_modify]
  exact ⟨_, rfl⟩

@[simp] theorem forget_connect (q : IndexPtr) : (e.connect new q).forget s new = e.forget s new := by
  obtain ⟨skip, h⟩ := connect_eq e new q
  rw [h, forget_modifyIndex]

@[simp] theorem forget_inheritStatus (q : IndexPtr) :
    (e.inheritStatus s new q).forget s new = e.forget s new := by
  unfold inheritStatus
  split_ifs <;> simp

@[simp] theorem forget_joinParent (prevId : Uint256) :
    (e.joinParent s prevId).forget s new = e.forget s new := by
  unfold joinParent
  split <;> simp

variable (st)

@[simp] theorem forget_newIndex : (e.newIndex s new st).forget s new = e.forget s new := by
  simp [newIndex]

@[simp] theorem forget_createBlockIndexFor :
    (e.createBlockIndexFor chain s new st).forget s new = e.forget s new := by
  unfold createBlockIndexFor
  dsimp only
  split <;> split_ifs <;> simp

@[simp] theorem forget_recognise (p : IndexPtr) :
    (e.recognise s st p).forget s new = e.forget s new := by
  unfold recognise
  dsimp only
  split
  · split_ifs <;> simp
  · split
    · split_ifs <;> simp
    · split_ifs <;> simp

variable {st}

/-! ### The state of a block with a new header -/

def parentFailed (prevId : Uint256) : Bool :=
  (e.findPrev prevId).any fun q => (e q).nHeight ≠ -1 && (e q).failed

variable {e} {q : IndexPtr} {id : Uint256} {r : Engine × String}

/-- The state of a block that has been given an index object of its own. -/
structure MadeFor (fresh : IndexPtr) (bad : Bool) (st st' : BlockValidationState) : Prop where
  blockIndex : st'.blockIndex = some fresh
  ownsIndex : st'.ownsIndex = true
  blockId : st'.blockId = st.blockId
  checkMerkleRoot : st'.checkMerkleRoot = st.checkMerkleRoot
  children : st'.chainChildren = st.chainChildren
  error : st'.error = if bad then "bad-parent" else st.error
  corruption : st'.isCorruptionPossible = (!bad && st.isCorruptionPossible)
  invalid : st'.status.invalid = (st.status.invalid || bad)
  validityOnly : st'.checkValidityOnly = st.checkValidityOnly

theorem connect_inheritStatus (hs : e.states s = some st) (hix : st.blockIndex = some new)
    (howns : st.ownsIndex) (hfr : (e new).failed = false) (hq : q ≠ new) :
    (((e.connect new q).inheritStatus s new q).index new).failed = (e q).failed ∧
      ∃ st', ((e.connect new q).inheritStatus s new q).states s = some st' ∧
        MadeFor new (e q).failed st st' := by
  obtain ⟨skip, hconn⟩ := connect_eq e new q
  have hq' : (e.connect new q).index q = e.index q := by rw [hconn, modifyIndex_of_ne _ hq]
  have hs' : (e.connect new q).states s = some st := by rw [hconn]; exact hs
  have hfr' : ((e.connect new q).index new).failed = false := by
    rw [hconn, modifyIndex_self]
    exact hfr
  unfold inheritStatus
  rw [hq']
  split_ifs with hfl htree
  · refine ⟨?_, st.blockFailed 10 "bad-parent" .rejectInvalid false, ?_, ?_⟩
    · rw [hfl]
      simp [BlockIndex.failed]
    · simp [hs']
    · rw [hfl]
      exact ⟨hix, howns, rfl, rfl, rfl, rfl, rfl, by simp [blockFailed], rfl⟩
  · rw [not_eq_true] at hfl
    refine ⟨?_, st.setValidTree, ?_, ?_⟩
    · rw [hfl, modifyState_index, modifyIndex_self, RaiseValidity_failed, hfr']
    · simp [hs']
    · rw [hfl]
      exact ⟨hix, howns, rfl, rfl, rfl, rfl, rfl, by simp [setValidTree], rfl⟩
  · rw [not_eq_true] at hfl
    refine ⟨by rw [hfr', hfl], st, hs', ?_⟩
    rw [hfl]
    exact ⟨hix, howns, rfl, rfl, rfl, rfl, rfl, by simp, rfl⟩

theorem joinParent_states (ht : ∀ t, e.beingValidated st.block.previousBlockId = some t → s ≠ t) :
    (e.joinParent s st.block.previousBlockId).states s = e.states s := by
  unfold joinParent
  cases hb : e.beingValidated st.block.previousBlockId with
  | none => rfl
  | some t => exact modifyState_of_ne _ (ht t hb)

theorem joinParent_db (e : Engine) (s : StateId) (prevId : Uint256) :
    (e.joinParent s prevId).db = e.db := by
  unfold joinParent
  split <;> rfl

theorem newIndex_of_ne (hq : q ≠ new) : (e.newIndex s new st).index q = e.index q := by
  unfold newIndex
  rw [modifyState_index, modifyIndex_of_ne _ hq, index, joinParent_db, index]

/-- A new header inherits the mark of its parent. -/
theorem createBlockIndexFor_spec (hs : e.states s = some st)
    (ht : ∀ t, e.beingValidated st.block.previousBlockId = some t → s ≠ t)
    (hprev : e.findPrev st.block.previousBlockId ≠ some new) :
    ((e.createBlockIndexFor chain s new st).index new).failed = e.parentFailed st.block.previousBlockId ∧
      ∃ st', (e.createBlockIndexFor chain s new st).states s = some st' ∧
        MadeFor new (e.parentFailed st.block.previousBlockId) st st' := by
  obtain ⟨st1, hs1, hmade⟩ : ∃ st1, (e.newIndex s new st).states s = some st1 ∧
      MadeFor new false st st1 := by
    unfold newIndex
    rw [modifyState_self, modifyIndex_states, joinParent_states ht, hs, map_some]
    exact ⟨_, rfl, rfl, rfl, rfl, rfl, rfl, rfl, rfl, by simp, rfl⟩
  have hfr : ((e.newIndex s new st).index new).failed = false := by
    unfold newIndex
    rw [modifyState_index, modifyIndex_self]
    rfl
  unfold createBlockIndexFor parentFailed
  cases hq : e.findPrev st.block.previousBlockId with
  | none =>
    split_ifs
    · refine ⟨?_, st1.setValidParent, ?_, ?_⟩
      · rw [modifyState_index, modifyIndex_self]
        exact hfr
      · rw [modifyState_self, modifyIndex_states, hs1, map_some]
      · exact ⟨hmade.1, hmade.2, hmade.3, hmade.4, hmade.5, hmade.6, hmade.7, hmade.8, hmade.9⟩
    · exact ⟨hfr, st1, hs1, hmade⟩
  | some q =>
    have hne : q ≠ new := fun heq => hprev (by rw [hq, heq])
    dsimp only
    rw [any_some, newIndex_of_ne hne]
    by_cases hpl : (e q).nHeight = -1
    · simp only [hpl, ne_eq, not_true_eq_false, decide_false, Bool.false_and]
      exact ⟨hfr, st1, hs1, hmade⟩
    · simp only [hpl, ne_eq, not_false_eq_true, decide_true, Bool.true_and]
      obtain ⟨hfl, st', hs', h⟩ := connect_inheritStatus hs1 hmade.blockIndex hmade.ownsIndex hfr hne
      rw [newIndex_of_ne hne] at hfl h
      refine ⟨hfl, st', hs', h.1, h.2, h.3.trans hmade.3, h.4.trans hmade.4, h.5.trans hmade.5, ?_,
        ?_, ?_, h.9.trans hmade.9⟩
      · rw [h.error, hmade.error]
        rfl
      · rw [h.corruption, hmade.corruption]
        rfl
      · rw [h.invalid, hmade.invalid, Bool.or_false]

/-! ### A block that is refused -/

theorem recursivelyMark_childless (hs : e.states s = some st) (hchildren : st.chainChildren = [])
    (n : ℕ) :
    recursivelyMark (n + 1) e s = e.modifyState s setInvalid := by
  rw [recursivelyMark, hs]
  dsimp only
  rw [hchildren]
  rfl

theorem foldl_failDescendants_fresh (hpar : ∀ q ≠ new, (e q).pprev ≠ some new) (tips : List IndexPtr)
    (htips : new ∉ tips) : tips.foldl (failDescendants new) e = e := by
  have hwalk {tip : IndexPtr} (htip : tip ≠ new) (n : ℕ) {q : IndexPtr}
      (hq : e.db.index.walk n tip = some q) :
      q ≠ new := by
    induction n generalizing q with
    | zero =>
      cases hq
      exact htip
    | succ n ih =>
      rw [walk_succ] at hq
      obtain ⟨r, hr, hrq⟩ := bind_eq_some_iff.mp hq
      exact fun heq => hpar r (ih hr) (heq ▸ hrq)
  induction tips with
  | nil => rfl
  | cons tip tips ih =>
    obtain ⟨htip, htips⟩ := not_or.mp (mt List.mem_cons.mpr htips)
    rw [List.foldl_cons, failDescendants, if_neg, ih htips]
    intro hanc
    unfold GetAncestor at hanc
    split_ifs at hanc
    exact hwalk (Ne.symm htip) _ hanc rfl

theorem blame_fresh (hpar : ∀ q ≠ new, (e q).pprev ≠ some new) (htip : new ∉ e.db.headerChainTips)
    (id : Uint256) :
    e.blame new id = { e.modifyIndex new (fun b => { b with failedValid := true }) with
      utxo := e.utxo.setFailedBlockId id } := by
  have hnone : (e.modifyIndex new fun b => { b with failedValid := true }).db.headerChainTips.foldl
      (failDescendants new) (e.modifyIndex new fun b => { b with failedValid := true }) =
      e.modifyIndex new fun b => { b with failedValid := true } :=
    foldl_failDescendants_fresh (fun q hq => by rw [modifyIndex_of_ne _ hq]; exact hpar q hq) _ htip
  unfold blame
  dsimp only
  rw [hnone]
  rfl

/-- What is left of a block whose header is new, once it has been refused. -/
def refused (e : Engine) (st : BlockValidationState) : Engine :=
  if !st.checkValidityOnly && st.checkMerkleRoot &&
      !(!e.parentFailed st.block.previousBlockId && st.isCorruptionPossible) then
    { e with utxo := e.utxo.setFailedBlockId st.blockId }
  else e

theorem Vacant.ne_beingValidated (h : e.Vacant s new) {t : StateId}
    (ht : e.beingValidated id = some t) : s ≠ t := by
  rintro rfl
  obtain ⟨l1, l2, hl, -⟩ := List.lookup_eq_some_iff.mp ht
  have hdead := h.dead
  unfold alive at hdead
  rw [hl] at hdead
  simp at hdead

theorem Vacant.newState_findPrev (h : e.Vacant s new) (st : BlockValidationState) (id : Uint256) :
    (e.newState s st).findPrev id = e.findPrev id := by
  have hbg : (e.newState s st).beingValidated id = e.beingValidated id := rfl
  unfold findPrev
  rw [hbg]
  cases hb : e.beingValidated id with
  | none => rfl
  | some t =>
    unfold newState
    dsimp only
    rw [update_of_ne (h.ne_beingValidated hb).symm]

theorem Vacant.newState_parentFailed (h : e.Vacant s new) (st : BlockValidationState) (id : Uint256) :
    (e.newState s st).parentFailed id = e.parentFailed id := by
  rw [parentFailed, h.newState_findPrev]
  rfl

/-- Everything but the state and the memory is as it was. -/
theorem eq_of_forget_eq (h : e'.forget s new = e.forget s new) :
    (∀ q ≠ new, e'.index q = e.index q) ∧ e'.db.headerChainTips = e.db.headerChainTips ∧
      e'.utxo = e.utxo ∧ e'.alive s = e.alive s := by
  refine ⟨fun q hq => ?_, congrArg (fun e => e.db.headerChainTips) h, congrArg (fun e => e.utxo) h,
    congrArg (fun e => e.alive s) h⟩
  have hix : (e'.forget s new).index q = (e.forget s new).index q := by rw [h]
  simpa only [forget, index, modify_of_ne _ _ hq] using hix

theorem forget_blame_fresh (hpar : ∀ q ≠ new, (e q).pprev ≠ some new) (htip : new ∉ e.db.headerChainTips)
    (id : Uint256) :
    (e.blame new id).forget s new = { e.forget s new with utxo := e.utxo.setFailedBlockId id } := by
  have hfg := forget_modifyIndex s new e fun b => { b with failedValid := true }
  rw [blame_fresh hpar htip, ← hfg]
  rfl

/-- `handleFailedBlock` for a block whose index object is its own. -/
theorem handleFailedBlock_owned (hs : e.states s = some st) (hp : st.blockIndex = some new)
    (howns : st.ownsIndex) (hchildren : st.chainChildren = []) (hdead : e.alive s = false)
    (hpar : ∀ q ≠ new, (e q).pprev ≠ some new) (htip : new ∉ e.db.headerChainTips) :
    ∃ r, handleFailedBlock s e = .ok r ∧ r.verdict s "" = ⟨"", st.error, true⟩ ∧
      r.release s new = if !st.isCorruptionPossible && st.checkMerkleRoot then
        { e.forget s new with utxo := e.utxo.setFailedBlockId st.blockId } else e.forget s new := by
  obtain ⟨states, hmark, heq⟩ := handleFailedBlock_eq hs hp
  rw [recursivelyMark_childless hs hchildren] at hmark
  have hfg := forget_modifyState s new e setInvalid
  have hs' : ({ e with states := states } : Engine).states s = some st.setInvalid := by
    rw [← hmark, modifyState_self, hs, map_some]
  rw [heq, howns]
  rw [hmark] at hfg
  have hdead' : ({ e with states := states } : Engine).alive s = false := hdead
  have hutxo : ({ e with states := states } : Engine).utxo = e.utxo := rfl
  have hpar' : ∀ q ≠ new, (({ e with states := states } : Engine).index q).pprev ≠ some new := hpar
  have htip' : new ∉ ({ e with states := states } : Engine).db.headerChainTips := htip
  generalize ({ e with states := states } : Engine) = e1 at hfg hs' hdead' hutxo hpar' htip' ⊢
  by_cases hbl : (!st.isCorruptionPossible && st.checkMerkleRoot) = true
  · rw [if_pos hbl, if_pos rfl, if_pos hbl]
    have hsts : (e1.blame new st.blockId).states = e1.states := by rw [blame_fresh hpar' htip']; rfl
    refine ⟨_, rfl, ?_, ?_⟩
    · rw [verdict, hsts, hs', elim_some]
      rfl
    · rw [release_eq_forget, forget_blame_fresh hpar' htip', hfg, hutxo]
      · rw [blame_fresh hpar' htip']
        exact hdead'
      · rw [hsts, hs']
        exact .inl howns
  · rw [if_neg hbl, if_neg hbl]
    refine ⟨e1, rfl, by rw [verdict, hs', elim_some]; rfl, ?_⟩
    rw [release_eq_forget hdead' (.inl (by rw [hs']; exact howns)), hfg]

/-- A block with a new header that is refused leaves at most its id behind. -/
theorem placeBlock_refused (ps : Params) (chain : ChainParams) (hv : e.Vacant s new)
    (hchildren : st.chainChildren = [])
    (hbad : (st.status.invalid || e.parentFailed st.block.previousBlockId) = true) :
    ∃ r, ((e.newState s st).createBlockIndexFor chain s new st).placeBlock ps chain s
      st.status.invalid st new = .ok (r, "") ∧ r.release s new = e.refused st ∧
      r.verdict s "" = ⟨"",
        if e.parentFailed st.block.previousBlockId then "bad-parent" else st.error, true⟩ := by
  obtain ⟨hfl, st', hs', hmade⟩ := createBlockIndexFor_spec (newState_self e s st) (fun t ht =>
    hv.ne_beingValidated ht)
    (hv.newState_findPrev st st.block.previousBlockId ▸ hv.found _)
  rw [hv.newState_parentFailed] at hfl hmade
  have hfg : ((e.newState s st).createBlockIndexFor chain s new st).forget s new =
      e.forget s new := by simp
  generalize (e.newState s st).createBlockIndexFor chain s new st = e1 at hfl hs' hfg ⊢
  obtain ⟨hix, htips, hutxo, halive⟩ := eq_of_forget_eq hfg
  rw [hv.forget] at hfg
  rw [hv.dead] at halive
  unfold placeBlock refused
  rw [hfl, if_pos hbad]
  by_cases hbl : (!st.checkValidityOnly && st.checkMerkleRoot) = true
  · obtain ⟨r, hrun, hvd, hrel⟩ := handleFailedBlock_owned hs' hmade.blockIndex hmade.ownsIndex
      (hmade.children.trans hchildren) halive (fun q hq => by rw [hix q hq]; exact hv.parent q)
      fun h => hv.tip (htips ▸ h)
    rw [if_pos hbl, hbl, Bool.true_and, hrun]
    refine ⟨r, rfl, ?_, ?_⟩
    · rw [hrel, hmade.corruption, hmade.checkMerkleRoot, (Bool.and_eq_true_iff.mp hbl).2, Bool.and_true,
        hfg, hutxo, hmade.blockId]
    · rw [hvd, hmade.error]
  · rw [if_neg hbl, Bool.not_eq_true _ |>.mp hbl, Bool.false_and]
    refine ⟨e1, rfl, ?_, ?_⟩
    · rw [release_eq_forget halive (.inl (by rw [hs']; exact hmade.ownsIndex)), hfg]
      rfl
    · rw [verdict, hs', elim_some, hmade.error, hmade.invalid, hbad]

/-! ### A block with a known header -/

/-- All that `recognise` changes of the block's state is one bit. -/
theorem recognise_spec {st0 : BlockValidationState} (st : BlockValidationState)
    (hs : e.states s = some st0) (ht : ∀ t, e.beingValidated st.block.previousBlockId = some t →
      s ≠ t) (p : IndexPtr) :
    (e.recognise s st p).db = e.db ∧ (e.recognise s st p).utxo = e.utxo ∧ ∃ valid,
      (e.recognise s st p).states s =
        some { st0 with status := { st0.status with validParent := valid } } := by
  have hset {e1 : Engine} (valid : Bool)
      (h : e1.states s = some { st0 with status := { st0.status with validParent := valid } }) :
      (e1.modifyState s setValidParent).states s =
        some { st0 with status := { st0.status with validParent := true } } := by
    rw [modifyState_self, h]
    rfl
  unfold recognise
  cases (e p).pprev with
  | none =>
    dsimp only
    split_ifs
    · exact ⟨rfl, rfl, true, hset _ hs⟩
    · exact ⟨rfl, rfl, st0.status.validParent, hs⟩
  | some q =>
    cases hb : e.beingValidated st.block.previousBlockId with
    | some t =>
      have hcd : (e.addChild t s).states s = some st0 := (modifyState_of_ne _ (ht t hb)).trans hs
      dsimp only
      split_ifs
      · exact ⟨rfl, rfl, true, hset _ hcd⟩
      · exact ⟨rfl, rfl, st0.status.validParent, hcd⟩
    | none =>
      dsimp only
      split_ifs
      · exact ⟨rfl, rfl, true, hset true (hset _ hs)⟩
      · exact ⟨rfl, rfl, true, hset _ hs⟩
      · exact ⟨rfl, rfl, true, hset _ hs⟩
      · exact ⟨rfl, rfl, st0.status.validParent, hs⟩

/-- The state of a block whose header is known, once it has been recognised. -/
def recognised (e : Engine) (s : StateId) (st : BlockValidationState) (p : IndexPtr) : Engine :=
  ((e.newState s st).modifyState s fun st =>
    { st with blockIndex := some p, ownsIndex := false }).recognise s st p

/-- Forgetting a known header's block undoes its reception. -/
theorem recognised_spec (hv : e.Vacant s new) (st : BlockValidationState) (p : IndexPtr) :
    (e.recognised s st p).forget s new = e ∧ (e.recognised s st p).db = e.db ∧
      (e.recognised s st p).utxo = e.utxo ∧ ∃ valid, (e.recognised s st p).states s = some { st with
        blockIndex := some p, ownsIndex := false,
          status := { st.status with validParent := valid } } := by
  have hs : ((e.newState s st).modifyState s fun st =>
      { st with blockIndex := some p, ownsIndex := false }).states s =
      some { st with blockIndex := some p, ownsIndex := false } := by
    rw [modifyState_self, newState_self, map_some]
  obtain ⟨hdb, hutxo, hst⟩ := recognise_spec st hs (fun t ht => hv.ne_beingValidated ht) p
  exact ⟨by simp [recognised, hv.forget], hdb, hutxo, hst⟩

/-- A block with a known header that is refused, but not blamed, leaves nothing behind. -/
theorem placeBlock_excused (ps : Params) (chain : ChainParams) (p : IndexPtr) (hv : e.Vacant s new)
    (hchildren : st.chainChildren = []) (hinvalid : st.status.invalid)
    (hexcused : (!st.checkValidityOnly && st.checkMerkleRoot && !st.isCorruptionPossible) = false) :
    ∃ r, (e.recognised s st p).placeBlock ps chain s st.status.invalid st p = .ok (r, "") ∧
      r.release s new = e := by
  obtain ⟨hfg, hdb, -, valid, hs⟩ := recognised_spec hv st p
  have hmem : (e.recognised s st p).index new = freeMemory := by rw [index, hdb]; exact hv.memory
  have hdead : (e.recognised s st p).alive s = false := (congrArg (fun e => e.alive s) hfg).trans hv.dead
  generalize e.recognised s st p = e1 at hfg hs hmem hdead ⊢
  unfold placeBlock
  rw [hinvalid, Bool.true_or, if_pos rfl]
  split_ifs with hbl
  · rw [hbl, Bool.true_and, Bool.not_eq_false'] at hexcused
    obtain ⟨states, hmark, heq⟩ := handleFailedBlock_eq hs rfl
    rw [recursivelyMark_childless hs hchildren] at hmark
    rw [heq, ← hmark]
    rw [hexcused]
    refine ⟨e1.modifyState s setInvalid, rfl, ?_⟩
    have hdead2 : (e1.modifyState s setInvalid).alive s = false := hdead
    rw [release_eq_forget hdead2 (.inr hmem), forget_modifyState, hfg]
  · refine ⟨e1, rfl, ?_⟩
    rw [release_eq_forget hdead (.inr hmem), hfg]

/-- Leaving a failed branch keeps the blocks in flight. -/
theorem leaveFailed_keeps (h : e.leaveFailed p = .ok e') :
    e'.db = (e.db.appendHeader p).2 ∧ e'.states = e.states ∧
      e'.blocksBeingValidated = e.blocksBeingValidated ∧
      e'.shuttingDown = e.shuttingDown ∧ e'.utxo.rejectedBlocks = e.utxo.rejectedBlocks := by
  unfold leaveFailed at h
  dsimp only at h
  split_ifs at h
  · have hsts := prepareChain_keeps (g := Engine.states) (fun _ _ _ _ => rfl) h
    have hbg := prepareChain_keeps (g := Engine.blocksBeingValidated) (fun _ _ _ _ => rfl) h
    have hdown := prepareChain_keeps (g := Engine.shuttingDown) (fun _ _ _ _ => rfl) h
    have hrej := prepareChain_rejectedBlocks h
    exact ⟨prepareChain_db h, hsts, hbg, hdown, hrej⟩
  · cases h
    exact ⟨rfl, rfl, rfl, rfl, rfl⟩

theorem blockIdHasFailed_iff {db : UnspentOutputDatabase} :
    db.blockIdHasFailed id = true ↔ id ∈ db.rejectedBlocks := List.contains_iff_mem

theorem placeBlock_blamed (hv : e.Vacant s new) (hchildren : st.chainChildren = [])
    (hinvalid : st.status.invalid)
    (hbl : (!st.checkValidityOnly && st.checkMerkleRoot && !st.isCorruptionPossible) = true)
    (hrun : (e.recognised s st p).placeBlock ps chain s st.status.invalid st p = .ok r) :
    (r.1.index p).failedValid = true ∧ r.1.utxo.blockIdHasFailed st.blockId ∧
      r.1.db.byHash = e.db.byHash ∧
      r.1.blocksBeingValidated = e.blocksBeingValidated ∧ r.1.shuttingDown = e.shuttingDown ∧
      (r.1.states s).any ownsIndex = false := by
  obtain ⟨hfg, hdb, -, valid, hs⟩ := recognised_spec hv st p
  have hbg : (e.recognised s st p).blocksBeingValidated = e.blocksBeingValidated :=
    congrArg (fun e => e.blocksBeingValidated) hfg
  have hdown : (e.recognised s st p).shuttingDown = e.shuttingDown :=
    congrArg (fun e => e.shuttingDown) hfg
  generalize e.recognised s st p = e1 at hdb hs hbg hdown hrun
  rw [and_eq_true_iff] at hbl
  have hmk := (and_eq_true_iff.mp hbl.1).2
  unfold placeBlock at hrun
  rw [hinvalid, Bool.true_or, if_pos rfl, if_pos hbl.1] at hrun
  obtain ⟨e2, hhn, rfl⟩ := Guards.map_eq_ok_iff.mp hrun
  obtain ⟨states, hmark, heq⟩ := handleFailedBlock_eq hs rfl
  rw [recursivelyMark_childless hs hchildren] at hmark
  have hown : (states s).any ownsIndex = false := by
    have hsts : (e1.modifyState s setInvalid).states s = states s := congrArg (fun e => e.states s) hmark
    rw [← hsts, modifyState_self, hs]
    rfl
  rw [heq] at hhn
  dsimp only at hhn
  rw [hbl.2, hmk, Bool.and_self, if_pos rfl, if_neg (by decide)] at hhn
  obtain ⟨hdb2, hsts2, hbg2, hdown2, hrej2⟩ := leaveFailed_keeps hhn
  obtain ⟨child, hframe⟩ := blame_frame { e1 with states := states } p st.blockId
  rw [hframe] at hdb2 hsts2 hbg2 hdown2 hrej2
  refine ⟨?_, ?_, ?_, hbg2.trans hbg, hdown2.trans hdown, by rw [hsts2, hown]⟩
  · rw [index, hdb2, BlocksDB.appendHeader_index]
    simp [setMarks]
  · rw [blockIdHasFailed_iff, hrej2]
    exact List.mem_insert_self
  · rw [hdb2, BlocksDB.appendHeader_byHash, hdb]

/-! ### The step for a new state -/

/-- `blockHeaderValidated` for a state that has just been made. -/
theorem blockHeaderValidated_newState (e : Engine) (s : StateId) (new : IndexPtr)
    (hsize : ¬ st.block.size < 80) :
    (e.newState s st).blockHeaderValidated ps chain s new =
      if e.shuttingDown then .ok (e.newState s st, "")
      else
        match if st.status.invalid then none else e.beingValidated st.blockId with
        | some t => .ok ((e.newState s st).modifyState s fun st' => { st' with
            blockIndex := ((e.newState s st).states t).bind blockIndex }, "")
        | none =>
          match if st.checkMerkleRoot then e.db.byHash st.blockId else none with
          | some p =>
            if (e p).failed then
              .ok ((e.newState s st).modifyState s fun st =>
                { st with blockIndex := some p, ownsIndex := false },
                "Block failed previously, not rechecking")
            else if e.onBlockchain p then
              .ok ((e.newState s st).modifyState s fun st =>
                { st with blockIndex := some p, ownsIndex := false }, "")
            else (e.recognised s st p).placeBlock ps chain s st.status.invalid st p
          | none => ((e.newState s st).createBlockIndexFor chain s new st).placeBlock ps chain s st.status.invalid st
              new := by
  unfold blockHeaderValidated
  rw [newState_self]
  dsimp only
  rw [if_neg hsize]
  rfl

theorem release_forgotten {r : Engine} (hv : e.Vacant s new) (hfg : r.forget s new = e)
    (hmem : r.index new = freeMemory) : r.release s new = e := by
  have hdead : r.alive s = false := (congrArg (fun e => e.alive s) hfg).trans hv.dead
  rw [release_eq_forget hdead (.inr hmem), hfg]

/-- The engine after a block has been refused, unless a known header is blamed for it. -/
def afterRefusal (e : Engine) (st : BlockValidationState) : Engine :=
  if e.shuttingDown then e
  else
    match if st.checkMerkleRoot then e.db.byHash st.blockId else none with
    | some _ => e
    | none => e.refused st

/-- A state that has just been made for a block with a whole header. -/
structure Incoming (st : BlockValidationState) : Prop where
  size : ¬ st.block.size < 80
  children : st.chainChildren = []
  invalid : st.status.invalid = false
  ownsIndex : st.ownsIndex = false

/-- A known header is marked for the failure. -/
def Blamed (e : Engine) (st : BlockValidationState) : Prop :=
  e.shuttingDown = false ∧
    (!st.checkValidityOnly && st.checkMerkleRoot && !st.isCorruptionPossible) = true ∧
    ∃ p, e.db.byHash st.blockId = some p ∧ (e p).failed = false ∧ e.onBlockchain p = false

/-- A refused block leaves its id at most, if no known header is blamed. -/
theorem blockHeaderValidated_refused (ps : Params) (chain : ChainParams) (hv : e.Vacant s new)
    (hsize : ¬ st.block.size < 80) (hchildren : st.chainChildren = [])
    (hinvalid : st.status.invalid) (hbl : ¬ e.Blamed st) :
    ∃ r, (e.newState s st).blockHeaderValidated ps chain s new = .ok r ∧
      r.1.release s new = e.afterRefusal st := by
  have hfg : (e.newState s st).forget s new = e := by simp [hv.forget]
  rw [blockHeaderValidated_newState e s new hsize]
  unfold afterRefusal
  by_cases hdown : e.shuttingDown
  · rw [if_pos hdown, if_pos hdown]
    exact ⟨_, rfl, release_forgotten hv hfg hv.memory⟩
  rw [if_neg hdown, if_neg hdown, hinvalid, if_pos rfl]
  cases hkn : (if st.checkMerkleRoot then e.db.byHash st.blockId else none) with
  | none =>
    obtain ⟨r, hrun, hrel, -⟩ :=
      placeBlock_refused ps chain hv hchildren (by rw [hinvalid, Bool.true_or])
    rw [hinvalid] at hrun
    exact ⟨_, hrun, hrel⟩
  | some p =>
    dsimp only
    have hea : ((e.newState s st).modifyState s fun st => { st with
        blockIndex := some p, ownsIndex := false }).release s new = e :=
      release_forgotten hv (by rw [forget_modifyState, hfg]) hv.memory
    by_cases hfl : (e p).failed
    · rw [if_pos hfl]
      exact ⟨_, rfl, hea⟩
    rw [if_neg hfl]
    by_cases hon : e.onBlockchain p
    · rw [if_pos hon]
      exact ⟨_, rfl, hea⟩
    rw [if_neg hon]
    have hexcused : (!st.checkValidityOnly && st.checkMerkleRoot && !st.isCorruptionPossible) =
        false := by
      rw [← not_eq_true]
      intro hbld
      split_ifs at hkn
      exact hbl ⟨eq_false_of_not_eq_true hdown, hbld, p, hkn, eq_false_of_not_eq_true hfl,
        eq_false_of_not_eq_true hon⟩
    obtain ⟨r, hrun, hrel⟩ := placeBlock_excused ps chain p hv hchildren hinvalid hexcused
    rw [hinvalid] at hrun
    exact ⟨_, hrun, hrel⟩

section Refused

variable {env : Checks1Env} {data : Bytes} {st' : BlockValidationState}

theorem receive_of_checks1 (h : st.checks1NoContext env data = st') :
    e.receive ps chain env data st s new =
      ((e.newState s st').blockHeaderValidated ps chain s new).map fun r =>
        (r.1.release s new, r.1.verdict s r.2) := by
  rw [receive, h]

variable (hcheck : st.checks1NoContext env data = st') (hsize : ¬ st'.block.size < 80)
  (hchildren : st'.chainChildren = []) (hinvalid : st'.status.invalid = true) (hv : e.Vacant s new)

include hcheck hsize hchildren hinvalid hv

theorem receive_refused (ps : Params) (chain : ChainParams) (hbl : ¬ e.Blamed st') :
    ∃ v, e.receive ps chain env data st s new = .ok (e.afterRefusal st', v) := by
  obtain ⟨r, hrun, hrel⟩ := blockHeaderValidated_refused ps chain hv hsize hchildren hinvalid hbl
  refine ⟨r.1.verdict s r.2, ?_⟩
  rw [receive_of_checks1 hcheck, hrun, ← hrel]
  rfl

theorem receive_blamed {r : Engine × Verdict} (hbl : e.Blamed st')
    (hp : e.db.byHash st'.blockId = some p) (hrun : e.receive ps chain env data st s new = .ok r) :
    (r.1.index p).failedValid = true ∧ r.1.utxo.blockIdHasFailed st'.blockId ∧
      r.1.db.byHash = e.db.byHash ∧
      r.1.blocksBeingValidated = e.blocksBeingValidated ∧ r.1.shuttingDown = false := by
  obtain ⟨hdown, hflg, q, hq, hfl, hon⟩ := hbl
  cases hq.symm.trans hp
  have hmk : st'.checkMerkleRoot := by
    rw [and_eq_true_iff, and_eq_true_iff] at hflg
    exact hflg.1.2
  rw [receive_of_checks1 hcheck, blockHeaderValidated_newState e s new hsize, hdown, hinvalid, hmk,
    hp] at hrun
  simp only [false_eq_true, if_false, if_true, hfl, hon] at hrun
  obtain ⟨r', hpl, rfl⟩ := Guards.map_eq_ok_iff.mp hrun
  rw [← hinvalid] at hpl
  obtain ⟨hmark, hid, hhash, hbg, hdown', hown⟩ := placeBlock_blamed hv hchildren hinvalid hflg hpl
  obtain ⟨hdb, hbg', hdown''⟩ := release_db new hown
  refine ⟨?_, ?_, ?_, hbg'.trans hbg, hdown''.trans (hdown'.trans hdown)⟩
  · rw [index, hdb]
    exact hmark
  · rw [release_utxo, hid]
  · rw [hdb, hhash]

end Refused

/-! ### A block that is accepted -/

theorem adoption_utxo (utxo : UnspentOutputDatabase) : AdoptionRule (fun _ => True) fun e =>
      e.utxo = utxo :=
  ⟨fun _ _ _ h => h, fun _ _ _ _ _ _ h => h, fun _ _ _ h => h⟩

/-- The messages that registering a header can leave. -/
def Untold (told : String) : Prop := told = "" ∨ told = "Failed due to checkpoint"

variable (chain)

theorem register_utxo (utxo : UnspentOutputDatabase) : RegisterRule chain fun e => e.utxo = utxo where
  own _ _ _ _ h := h
  mark _ _ _ h := h
  append _ _ h := h
  store e s st p h := by
    rw [← h]
    unfold storeBlock
    dsimp only
    split_ifs <;> rfl

theorem registerHeader_untold (r : Engine × String) (s : StateId) (h : Untold r.2) :
    Untold (registerHeader chain r s).2 := by
  unfold registerHeader
  split
  · exact h
  · split
    · exact h
    next st _ _ _ _ =>
      by_cases honly : st.checkValidityOnly
      · rwa [if_pos honly]
      · rw [if_neg honly]
        dsimp only [Untold]
        split_ifs
        all_goals first | exact .inr rfl | exact h

theorem foldl_registerHeader_untold (items : List StateId) (r : Engine × String) (h : Untold r.2) :
    Untold (items.foldl (registerHeader chain) r).2 := by
  induction items generalizing r with
  | nil => exact h
  | cons s items ih => exact ih _ (registerHeader_untold chain r s h)

theorem registered_utxo (e : Engine) (s : StateId) (st : BlockValidationState) :
    (e.registered chain s st).1.utxo = e.utxo ∧ Untold (e.registered chain s st).2 := by
  have hadopted : (e.adoptees s st).1.utxo = e.utxo :=
    (adoption_utxo e.utxo).adoptees s st (fun _ _ => trivial) rfl
  exact ⟨(register_utxo chain e.utxo).foldl (s :: (e.adoptees s st).2) _ hadopted,
    foldl_registerHeader_untold chain _ _ (.inl rfl)⟩

variable {chain}

theorem reorganise_rejectedBlocks {old : Chain} (h : e.reorganise ps old = .ok e') :
    e'.utxo.rejectedBlocks = e.utxo.rejectedBlocks := by
  rcases reorganise_cases h with rfl | ⟨e1, hprep, rfl⟩
  · rfl
  · have hrej := prepareChain_rejectedBlocks hprep
    exact hrej

/-- A block that is not refused adds nothing to the failed ids. -/
theorem placeBlock_accepted {hasFailed : Bool} (hok : (hasFailed || (e p).failed) = false)
    (hrun : e.placeBlock ps chain s hasFailed st p = .ok r) :
    r.1.utxo.rejectedBlocks = e.utxo.rejectedBlocks ∧ Untold r.2 := by
  unfold placeBlock at hrun
  rw [hok, if_neg (by decide)] at hrun
  dsimp only at hrun
  split_ifs at hrun with hpl honly
  · cases hrun
    exact ⟨rfl, .inl rfl⟩
  · cases hrun
    exact ⟨rfl, .inl rfl⟩
  · obtain ⟨e1, hre, hr⟩ := Guards.map_eq_ok_iff.mp hrun
    obtain ⟨hutxo, htold⟩ := registered_utxo chain (e.modifyState s fun st => { st with
      flags := e.tipFlags, fetchFees := e.tipFlags.enableValidation || e.fetchFeeForMetaBlocks }) s st
    have hrej := reorganise_rejectedBlocks hre
    rw [hutxo] at hrej
    rw [← hr]
    split_ifs
    · refine ⟨?_, htold⟩
      rw [(foldl_forwardBlock_keeps _ _).2.2]
      exact hrej
    · exact ⟨hrej, htold⟩

end Engine

end FloweeHub.Validation
