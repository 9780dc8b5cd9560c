import FloweeHub.Network.Connection
import Mathlib.Data.Prod.Lex

/-! Each run of the message queue marks a message as read or sends some bytes of a large one. The
work left is measured by what is not read and not sent. -/

namespace FloweeHub.Network

open Lib Streaming RingBuffer Option

namespace RingBuffer

variable {V : Type} {b : RingBuffer V} {v : V}

theorem unread_pos_of_tip (h : b.unreadTip = some v) : 0 < b.unread := by
  obtain ⟨hlt, -⟩ := List.getElem?_eq_some_iff.mp h
  exact Nat.sub_pos_of_lt hlt

theorem unread_eq_zero (h : b.unreadTip = none) : b.unread = 0 :=
  Nat.sub_eq_zero_of_le (List.getElem?_eq_none_iff.mp h)

theorem unread_removeAllRead (b : RingBuffer V) : b.removeAllRead.unread = b.unread := by
  rw [unread, removeAllRead, List.length_drop, unread, Nat.sub_zero]

theorem unreadTip_removeAllRead (b : RingBuffer V) : b.removeAllRead.unreadTip = b.unreadTip := by
  rw [unreadTip, removeAllRead, List.getElem?_drop, Nat.add_zero, unreadTip]

end RingBuffer

/-! ### The work left -/

namespace Sender

def tipLeft (s : Sender) : ℕ :=
  (s.messageQueue.unreadTip.elim 0 fun message => message.body.length) - s.messageBytesSend

/-- The messages that are not read, then the bytes of the first of them that are not sent. -/
def work (s : Sender) : ℕ ×ₗ ℕ := toLex (s.messageQueue.unread + s.priorityMessageQueue.unread,
    s.tipLeft)

theorem work_lt_of_unread {s t : Sender}
    (h : t.messageQueue.unread + t.priorityMessageQueue.unread < s.messageQueue.unread +
      s.priorityMessageQueue.unread) :
    t.work < s.work :=
  Prod.Lex.toLex_lt_toLex.mpr (.inl h)

end Sender

namespace Batch

variable {cfg : Config} {msg : Message} {b b' : Batch} {header : Bytes} {fuel p : ℕ} {c : Batch}

/-- What a batch keeps of the sender: the queues, up to what is marked as read. -/
structure Keeps (b b' : Batch) : Prop where
  sending : b'.sender.sendingInProgress = b.sender.sendingInProgress
  normal : b'.sender.messageQueue = b.sender.messageQueue
  priority : b'.sender.priorityMessageQueue = b.sender.priorityMessageQueue

theorem Keeps.trans (h : Keeps b b') (h' : Keeps b' c) : Keeps b c :=
  ⟨h'.sending.trans h.sending, h'.normal.trans h.normal, h'.priority.trans h.priority⟩

theorem keeps_pushHeader (h : b.pushHeader header = some b') :
    Keeps b b' ∧ b'.sender.messageBytesSend = b.sender.messageBytesSend := by
  obtain ⟨headers, -, rfl⟩ := map_eq_some_iff.mp h
  exact ⟨⟨rfl, rfl, rfl⟩, rfl⟩

theorem keeps_priorityHeader {size : ℕ} (h : b.priorityHeader cfg msg = some (b', size)) :
    Keeps b b' := by
  unfold priorityHeader at h
  split_ifs at h
  · obtain ⟨rfl, -⟩ := Prod.mk.inj (some.inj h)
    exact ⟨rfl, rfl, rfl⟩
  · obtain ⟨header, -, hmap⟩ := bind_eq_some_iff.mp h
    obtain ⟨b'', hpush, heq⟩ := map_eq_some_iff.mp hmap
    obtain ⟨rfl, -⟩ := Prod.mk.inj heq
    exact (keeps_pushHeader hpush).1

/-- A turn of one of the loops: the sender stays busy and the work gets less. -/
structure Advances (b b' : Batch) : Prop where
  sending : b'.sender.sendingInProgress = b.sender.sendingInProgress
  less : b'.sender.work < b.sender.work

theorem advances_priority (htip : b.sender.priorityMessageQueue.unreadTip = some msg)
    (h : b.sendPriorityMessage cfg msg = some b') : Advances b b' := by
  obtain ⟨⟨c, size⟩, hhd, hrest⟩ := bind_eq_some_iff.mp h
  split_ifs at hrest with hsize
  cases hrest
  have hkp := keeps_priorityHeader hhd
  refine ⟨hkp.sending, Sender.work_lt_of_unread ?_⟩
  have hunr := unread_pos_of_tip htip
  show c.sender.messageQueue.unread + (c.sender.priorityMessageQueue.unread - 1) < _
  rw [hkp.normal, hkp.priority]
  omega

theorem Keeps.readNormal (h : Keeps b c) (htip : b.sender.messageQueue.unreadTip = some msg) :
    Advances b c.readNormal := by
  refine ⟨h.sending, Sender.work_lt_of_unread ?_⟩
  have hunr := unread_pos_of_tip htip
  show c.sender.messageQueue.unread - 1 + c.sender.priorityMessageQueue.unread < _
  rw [h.normal, h.priority]
  omega

theorem advances_small (htip : b.sender.messageQueue.unreadTip = some msg)
    (h : b.sendSmallMessage cfg msg = some b') : Advances b b' := by
  obtain ⟨c, hhd, rfl⟩ := map_eq_some_iff.mp h
  have hkp : Keeps b c := by
    split_ifs at hhd
    · cases hhd
      exact ⟨rfl, rfl, rfl⟩
    · obtain ⟨header, -, hpush⟩ := bind_eq_some_iff.mp hhd
      exact (keeps_pushHeader hpush).1
  exact Keeps.readNormal ⟨hkp.sending, hkp.normal, hkp.priority⟩ htip

/-- A chunk of a large message. -/
theorem sendChunk_spec (h : b.sendChunk msg header p = some b') :
    Keeps b b' ∧ b'.sender.messageBytesSend = p := by
  obtain ⟨c, hpush, rfl⟩ := map_eq_some_iff.mp h
  exact ⟨(keeps_pushHeader hpush).1.trans ⟨rfl, rfl, rfl⟩, rfl⟩

/-- The chunks move on within the message; where there is one to send, they do move. -/
theorem sendChunks_spec {first : Bool} {chunkHeader : Option Bytes}
    (h : b.sendChunks msg fuel first chunkHeader = some b') :
    Keeps b b' ∧ b.sender.messageBytesSend ≤ b'.sender.messageBytesSend ∧
      (0 < fuel → b.sender.messageBytesSend < msg.body.length →
        b.sender.messageBytesSend < b'.sender.messageBytesSend) := by
  induction fuel generalizing b first chunkHeader with
  | zero =>
    cases h
    exact ⟨⟨rfl, rfl, rfl⟩, le_rfl, fun hfuel => absurd hfuel (Nat.lt_irrefl 0)⟩
  | succ fuel ih =>
    unfold sendChunks at h
    by_cases hmore : b.sender.messageBytesSend < msg.body.length
    · rw [if_pos hmore] at h
      obtain ⟨header, -, hrest⟩ := bind_eq_some_iff.mp h
      obtain ⟨c, hchunk, hrest⟩ := bind_eq_some_iff.mp hrest
      obtain ⟨hkp, hsent⟩ := sendChunk_spec hchunk
      have hmv : b.sender.messageBytesSend < c.sender.messageBytesSend := by
        rw [hsent, CHUNK_SIZE]
        omega
      by_cases hleft : c.bytesLeft ≤ 0
      · rw [if_pos hleft] at hrest
        cases hrest
        exact ⟨hkp, hmv.le, fun _ _ => hmv⟩
      · rw [if_neg hleft] at hrest
        obtain ⟨hkp', hle, -⟩ := ih hrest
        exact ⟨hkp.trans hkp', hmv.le.trans hle, fun _ _ => hmv.trans_le hle⟩
    · rw [if_neg hmore] at h
      cases h
      exact ⟨⟨rfl, rfl, rfl⟩, le_rfl, fun _ hlt => absurd hlt hmore⟩

theorem advances_large (htip : b.sender.messageQueue.unreadTip = some msg)
    (h : b.sendLargeMessage msg = some b') : Advances b b' := by
  unfold sendLargeMessage at h
  split_ifs at h
  obtain ⟨c, hcks, rfl⟩ := map_eq_some_iff.mp h
  obtain ⟨hkp, hle, hmoves⟩ := sendChunks_spec hcks
  split_ifs with hdone
  · exact Keeps.readNormal ⟨hkp.sending, hkp.normal, hkp.priority⟩ htip
  · -- the msg is not done with: the same messages are unread, and less of the first one
    refine ⟨hkp.sending, Prod.Lex.toLex_lt_toLex.mpr (.inr ⟨?_, ?_⟩)⟩
    · rw [hkp.normal, hkp.priority]
    · rw [Sender.tipLeft, Sender.tipLeft, hkp.normal, htip]
      show msg.body.length - _ < msg.body.length - _
      omega

theorem advances_normal (htip : b.sender.messageQueue.unreadTip = some msg)
    (h : b.sendNormalMessage cfg msg = some b') : Advances b b' := by
  unfold sendNormalMessage at h
  split_ifs at h
  · exact advances_large htip h
  · exact advances_small htip h

/-- A turn that sends does not add to the work. -/
structure KeepsOn (b b' : Batch) : Prop where
  sending : b'.sender.sendingInProgress = b.sender.sendingInProgress
  le : b'.sender.work ≤ b.sender.work

theorem KeepsOn.refl (b : Batch) : KeepsOn b b := ⟨rfl, le_rfl⟩

theorem Advances.keepsOn (h : Advances b b') : KeepsOn b b' := ⟨h.sending, h.less.le⟩

theorem Advances.trans (h : Advances b b') (h' : Advances b' c) : Advances b c :=
  ⟨h'.sending.trans h.sending, h'.less.trans h.less⟩

/-- The loop goes on with the work, or there is a reason to do nothing. -/
theorem sendPriority_cases (h : b.sendPriority cfg fuel = some b') : Advances b b' ∨
    b' = b ∧ (fuel = 0 ∨ b.sender.priorityMessageQueue.unread = 0 ∨ b.sender.sendQHeaders.isFull) := by
  induction fuel generalizing b with
  | zero => exact .inr ⟨(some.inj h).symm, .inl rfl⟩
  | succ fuel ih =>
    unfold sendPriority at h
    split at h
    · rename_i hnone
      exact .inr ⟨(some.inj h).symm, .inr (.inl (unread_eq_zero hnone))⟩
    · rename_i msg htip
      split_ifs at h with hfull
      · exact .inr ⟨(some.inj h).symm, .inr (.inr hfull)⟩
      · obtain ⟨c, hsend, hrest⟩ := bind_eq_some_iff.mp h
        have hadv := advances_priority htip hsend
        split_ifs at hrest
        · cases hrest
          exact .inl hadv
        · rcases ih hrest with hmore | ⟨rfl, -⟩
          · exact .inl (hadv.trans hmore)
          · exact .inl hadv

/-- The loop sends something, or has a reason not to. -/
theorem sendNormal_cases (h : b.sendNormal cfg fuel = some b') : Advances b b' ∨
    b' = b ∧ (fuel = 0 ∨ b.sender.messageQueue.unread = 0 ∨ b.bytesLeft ≤ 0 ∨
      b.sender.sendQHeaders.isFull) := by
  induction fuel generalizing b with
  | zero => exact .inr ⟨(some.inj h).symm, .inl rfl⟩
  | succ fuel ih =>
    unfold sendNormal at h
    split at h
    · rename_i hnone
      exact .inr ⟨(some.inj h).symm, .inr (.inl (unread_eq_zero hnone))⟩
    · rename_i msg htip
      split_ifs at h with hfull
      · exact .inr ⟨(some.inj h).symm, .inr (.inr hfull)⟩
      · obtain ⟨c, hsend, hrest⟩ := bind_eq_some_iff.mp h
        have hadv := advances_normal htip hsend
        rcases ih hrest with hmore | ⟨rfl, -⟩
        · exact .inl (hadv.trans hmore)
        · exact .inl hadv

end Batch

namespace Sender

variable {cfg : Config} {s s' : Sender} {connected : Bool}

/-- Either there is a reason to do nothing, or a write is started. -/
theorem runMessageQueue_cases (h : s.runMessageQueue cfg connected = some s') :
    s' = s ∧ (s.sendingInProgress ∨ (s.messageQueue.unread = 0 ∧ s.priorityMessageQueue.unread = 0) ∨
      connected = false) ∨
    s.sendingInProgress = false ∧ s'.sendingInProgress ∧
      (s.sendQHeaders.isFull = false → s'.work < s.work) := by
  unfold runMessageQueue at h
  by_cases hno : s.sendingInProgress ∨ (s.messageQueue.isRead ∧ s.priorityMessageQueue.isRead) ∨
    !connected
  · rw [if_pos hno] at h
    cases h
    refine .inl ⟨rfl, ?_⟩
    simpa [isRead] using hno
  · rw [if_neg hno] at h
    obtain ⟨b, hpri, hrest⟩ := bind_eq_some_iff.mp h
    obtain ⟨b', hnormal, rfl⟩ := map_eq_some_iff.mp hrest
    have hfst := (Batch.sendPriority_cases hpri).elim Batch.Advances.keepsOn fun h => h.1 ▸ .refl _
    have hsec := (Batch.sendNormal_cases hnormal).elim Batch.Advances.keepsOn fun h => h.1 ▸ .refl _
    simp only [isRead, decide_eq_true_eq, Bool.not_eq_true', not_or, not_and] at hno
    obtain ⟨hidle, hunr, -⟩ := hno
    refine .inr ⟨by simpa using hidle, hsec.sending.trans hfst.sending, fun hhds => ?_⟩
    -- the batch starts with the sender marked as sending, which does not count as work
    rcases Batch.sendPriority_cases hpri with hadv | ⟨rfl, hstop⟩
    · exact hsec.le.trans_lt hadv.less
    · have hzero : s.priorityMessageQueue.unread = 0 := by simpa [hhds] using hstop
      rcases Batch.sendNormal_cases hnormal with hadv | ⟨-, hstop⟩
      · exact hadv.less
      · exact absurd hzero (hunr (by simpa [hhds] using hstop))

end Sender

end FloweeHub.Network
