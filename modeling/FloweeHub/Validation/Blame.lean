import FloweeHub.Chain.HeaderRuns
import FloweeHub.Validation.HeaderValidated

/-! What the failure of a block does to the headers. The block and its descendants are marked, which
does not change the tree, and the validated chain follows the header chain. -/

namespace FloweeHub

namespace IndexHeap

variable {ix ix' : IndexHeap} {p q : IndexPtr}

variable (ix)

theorem setMarks_none : ix.setMarks (fun _ => false) (fun _ => false) = ix := by
  funext p
  simp [setMarks]

theorem setMarks_setMarks (v c v' c' : IndexPtr → Bool) :
    (ix.setMarks v c).setMarks v' c' = ix.setMarks (fun p => v p || v' p) (fun p => c p || c' p) := by
  funext p
  simp [setMarks, Bool.or_assoc]

theorem modify_failedChild (p : IndexPtr) :
    ix.modify p (fun b => { b with failedChild := true }) = ix.setMarks (fun _ => false) fun q =>
      q = p := by
  funext q
  by_cases hq : q = p
  · subst hq
    simp [setMarks]
  · simp [setMarks, modify_of_ne _ _ hq, hq]

theorem modify_failedValid (p : IndexPtr) :
    ix.modify p (fun b => { b with failedValid := true }) = ix.setMarks (fun q => q = p) fun _ =>
      false := by
  funext q
  by_cases hq : q = p
  · subst hq
    simp [setMarks]
  · simp [setMarks, modify_of_ne _ _ hq, hq]

/-- The ways to the genesis block from `p` are the same in both heaps. -/
def SameWay (index index' : IndexHeap) (p : IndexPtr) : Prop :=
  ∀ n q, index.walk n p = some q → (index' q).pprev = (index q).pprev ∧
    (index' q).nHeight = (index q).nHeight

theorem walk_add (m n : ℕ) (p : IndexPtr) : ix.walk (m + n) p = (ix.walk m p).bind (ix.walk n) := by
  rw [walk_eq_up, walk_eq_up, Lib.ParentTree.up_add]
  congr 1
  funext q
  rw [walk_eq_up]

variable {ix}

namespace SameWay

variable (h : SameWay ix ix' p)

include h

theorem walk (n : ℕ) : ix'.walk n p = ix.walk n p := by
  induction n with
  | zero => rfl
  | succ n ih =>
    rw [walk_succ, walk_succ, ih]
    cases hq : ix.walk n p with
    | none => rfl
    | some q => exact (h n q hq).1

theorem nHeight : (ix' p).nHeight = (ix p).nHeight := (h 0 p rfl).2

theorem GetAncestor (k : ℤ) : ix'.GetAncestor p k = ix.GetAncestor p k := by
  rw [IndexHeap.GetAncestor, IndexHeap.GetAncestor, h.nHeight, h.walk]

theorem of_walk {m : ℕ} (hq : ix.walk m p = some q) : SameWay ix ix' q :=
  fun n r hr => h (m + n) r (by rw [walk_add, hq, Option.bind_some, hr])

omit h

end SameWay

theorem GetAncestor_trans {a b : IndexPtr} {k : ℤ} (ha : ix.GetAncestor p (ix a).nHeight = some a)
    (hb : ix.GetAncestor a k = some b) : ix.GetAncestor p k = some b := by
  unfold GetAncestor at ha hb ⊢
  split_ifs at ha hb ⊢ with h1 h2 h3
  · omega
  · have hstps : ((ix p).nHeight - k).toNat =
        ((ix p).nHeight - (ix a).nHeight).toNat + ((ix a).nHeight - k).toNat := by omega
    rw [hstps, walk_add, ha, Option.bind_some, hb]

end IndexHeap

namespace Validation.Engine

open IndexHeap

variable {e : Engine} {p : IndexPtr} {s : StateId} {st : BlockValidationState}

theorem markDescendants_marks (n : ℕ) (e : Engine) (tip : IndexPtr) :
    ∃ child, markDescendants p n e tip =
      { e with db := { e.db with index := e.db.index.setMarks (fun _ => false) child } } := by
  induction n generalizing e tip with
  | zero => exact ⟨fun _ => false, by rw [setMarks_none]; rfl⟩
  | succ n ih =>
    unfold markDescendants
    split_ifs
    · exact ⟨fun _ => false, by rw [setMarks_none]⟩
    · dsimp only
      have hone : e.modifyIndex tip (fun b => { b with failedChild := true }) =
          { e with db := { e.db with index := e.db.index.setMarks (fun _ => false) fun q =>
            q = tip } } := by
        rw [modifyIndex, modify_failedChild]
      split
      · exact ⟨_, hone⟩
      next q _ =>
        obtain ⟨child, h⟩ := ih (e.modifyIndex tip fun b => { b with failedChild := true }) q
        refine ⟨fun r => decide (r = tip) || child r, ?_⟩
        rw [h, hone]
        simp only [setMarks_setMarks, Bool.or_self]

theorem foldl_failDescendants_marks (tips : List IndexPtr) (e : Engine) :
    ∃ child, tips.foldl (failDescendants p) e =
      { e with db := { e.db with index := e.db.index.setMarks (fun _ => false) child } } := by
  induction tips generalizing e with
  | nil => exact ⟨fun _ => false, by rw [setMarks_none]; rfl⟩
  | cons tip tips ih =>
    have hone : ∃ child, failDescendants p e tip =
        { e with db := { e.db with index := e.db.index.setMarks (fun _ => false) child } } := by
      unfold failDescendants
      split_ifs
      · exact markDescendants_marks ..
      · exact ⟨fun _ => false, by rw [setMarks_none]⟩
    obtain ⟨child, hone⟩ := hone
    obtain ⟨child', h⟩ := ih (failDescendants p e tip)
    refine ⟨fun r => child r || child' r, ?_⟩
    rw [List.foldl_cons, h, hone]
    simp only [setMarks_setMarks, Bool.or_self]

/-- The header is blamed: it and what descends from it is marked, and its id is remembered. -/
def blame (e : Engine) (p : IndexPtr) (id : Uint256) : Engine :=
  let e := e.modifyIndex p fun b => { b with failedValid := true }
  let e := e.db.headerChainTips.foldl (failDescendants p) e
  { e with utxo := e.utxo.setFailedBlockId id }

/-- Blaming changes marks, and remembers the id. -/
theorem blame_frame (e : Engine) (p : IndexPtr) (id : Uint256) :
    ∃ child, e.blame p id = { e with
      db := { e.db with index := e.db.index.setMarks (fun q => q = p) child }
      utxo := e.utxo.setFailedBlockId id } := by
  let e1 := e.modifyIndex p fun b => { b with failedValid := true }
  obtain ⟨child, h⟩ := foldl_failDescendants_marks (p := p) e1.db.headerChainTips e1
  refine ⟨child, ?_⟩
  unfold blame
  dsimp only
  rw [h]
  simp only [e1, modifyIndex, modify_failedValid, setMarks_setMarks, Bool.or_false, Bool.false_or]

/-- The headers leave a block that failed, and the validated chain follows. -/
def leaveFailed (e : Engine) (p : IndexPtr) : Except String Engine :=
  let r := e.db.appendHeader p
  if r.1 && e.db.headersChain ≠ r.2.headersChain then { e with db := r.2 }.prepareChain
  else .ok { e with db := r.2 }

theorem handleFailedBlock_eq (hs : e.states s = some st) (hp : st.blockIndex = some p) :
    ∃ states, recursivelyMark (e.nextState + 1) e s = { e with states := states } ∧
      handleFailedBlock s e =
        if !st.isCorruptionPossible && st.checkMerkleRoot then
          if st.ownsIndex then .ok ({ e with states := states }.blame p st.blockId)
          else ({ e with states := states }.blame p st.blockId).leaveFailed p
        else .ok { e with states := states } := by
  obtain ⟨states, hmark⟩ := recursivelyMark_frame (e.nextState + 1) e s
  refine ⟨states, hmark, ?_⟩
  unfold handleFailedBlock
  simp only [hs, hp, hmark]
  rfl

end Validation.Engine

end FloweeHub
