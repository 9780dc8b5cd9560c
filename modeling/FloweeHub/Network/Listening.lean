import FloweeHub.Network.Progress
import FloweeHub.Network.Splitting

/-! A connection that listens. Reading stops when the send queue is long, and the completion of a
write is to take it up again. That works in front of a packet that is there in full, and as the
callbacks may fill the queue at any packet, all that arrived has to be whole packets. A stop
anywhere else has nothing under way that would wake it. -/

namespace FloweeHub.Network

open Lib Streaming Option RingBuffer Bool

namespace Receiver

variable {s : Settings} {c : Receiver} {stream : Bytes} {behind : UInt8 × UInt8} {d : Receiver}
  {taken : ℕ}

/-- The next packet is a chunk that is refused and stays in the stream. -/
def refusesChunk (s : Settings) (behind : UInt8 × UInt8) (stream : Bytes) (c : Receiver) : Bool :=
  s.messageHeaderType = .floweeNative && packetLength stream ≤ MAX_MESSAGE_SIZE &&
    packetLength stream ≤ stream.length &&
    match Header.read (window stream behind) with
    | .header h => c.chunkRefused h (stream.take (packetLength stream))
    | _ => false

theorem settledTurn_packetTurn (hrefs : c.refusesChunk s behind stream = false) :
    c.SettledTurn (c.packetTurn s (window stream behind) stream) := by
  unfold packetTurn
  cases hnative : s.messageHeaderType with
  | floweeNative =>
    refine settledTurn_nativeTurn fun hsize hlen _ hread => ?_
    unfold refusesChunk at hrefs
    rw [hnative, hread, decide_eq_true hsize, decide_eq_true hlen] at hrefs
    simpa using hrefs
  | legacyP2P => exact settledTurn_legacyTurn s stream c

theorem refusesChunk_first (c : Receiver) :
    refusesChunk s behind stream { c with firstPacket := false } = c.refusesChunk s behind stream := by
  unfold refusesChunk
  simp only [chunkRefused_first]

/-- A turn leaves the connection up or takes it down; it does not return from it while it is up. -/
theorem turn_settled (hrefs : c.refusesChunk s behind stream = false) :
    match c.turn s behind stream with
    | .waits d => d.status = c.status
    | .returns d => d.status ≠ .up
    | .goesOn d _ => d.status = c.status := by
  rw [← refusesChunk_first] at hrefs
  have hset := settledTurn_packetTurn hrefs
  unfold turn
  split_ifs
  · simp [close]
  · cases hturn : packetTurn s (window stream behind) stream { c with firstPacket := false } with
    | waits d =>
      rw [hturn] at hset
      rw [show d = _ from hset]
    | returns d =>
      rw [hturn] at hset
      exact hset
    | goesOn d taken =>
      rw [hturn] at hset
      exact hset

theorem read_nil : Header.read [] = .closes := rfl

theorem packetTurn_pos (h : c.packetTurn s (window stream behind) stream = .goesOn d taken) :
    0 < taken := by
  unfold packetTurn at h
  split at h
  · unfold nativeTurn at h
    split_ifs at h
    obtain ⟨hres, rfl⟩ := Turn.ofResult_goesOn h
    -- the parser of an empty packet has nothing to read
    rcases Nat.eq_zero_or_pos (packetLength stream) with hzero | hpos
    · rw [processPacket, window, hzero, List.take_zero, read_nil] at hres
      cases hres
    · exact hpos
  · unfold legacyTurn at h
    split_ifs at h
    rw [(Turn.ofResult_goesOn h).2, LEGACY_HEADER_SIZE]
    omega

theorem turn_taken (h : c.turn s behind stream = .goesOn d taken) :
    0 < taken ∧ taken ≤ stream.length := by
  unfold turn at h
  split_ifs at h
  exact ⟨packetTurn_pos h, packetTurn_taken h⟩

/-- The stream is packets that are there in full, none of them refused, and up to three bytes. It is
so whatever the memory behind it holds. -/
inductive InPackets (s : Settings) : Receiver → Bytes → Prop
  | rest {c : Receiver} {stream : Bytes} : stream.length < 4 → InPackets s c stream
  | packet {c : Receiver} {stream : Bytes} : 4 < stream.length → packetLength stream ≤ stream.length →
      (∀ behind, c.refusesChunk s behind stream = false) →
      (∀ behind d taken, c.turn s behind stream = .goesOn d taken → InPackets s d (stream.drop taken)) →
      InPackets s c stream

end Receiver

/-- While nothing is being sent, no message is marked as read and no header is kept. -/
def Sender.Rested (s : Sender) : Prop :=
  s.sendingInProgress = false → s.messageQueue.read = 0 ∧ s.sendQHeaders.isFull = false

namespace Sender

variable {cfg : Config} {s s' : Sender} {connected : Bool} {message : Message}
  {priority : MessagePriority}

theorem isFull_of_first {V : Type} {b : RingBuffer V} (h : b.first = 0) : b.isFull = false := by
  rw [isFull, h]
  exact decide_eq_false (Nat.succ_ne_zero _)

theorem rested_initial (main priority : ℕ) : (initial main priority).Rested :=
  fun _ => ⟨rfl, isFull_of_first rfl⟩

theorem rested_finished (s : Sender) : s.finished.Rested := fun _ => ⟨rfl, isFull_of_first rfl⟩

theorem rested_failed (s : Sender) : s.failed.Rested := fun _ => ⟨rfl, isFull_of_first rfl⟩

theorem Rested.runMessageQueue (hs : s.Rested) (h : s.runMessageQueue cfg connected = some s') :
    s'.Rested ∧ (s.sendingInProgress → s'.sendingInProgress) := by
  rcases runMessageQueue_cases h with ⟨rfl, -⟩ | ⟨-, hsg, -⟩
  · exact ⟨hs, id⟩
  · exact ⟨fun hidle => absurd hsg (by rw [hidle]; decide), fun _ => hsg⟩

theorem Rested.append (hs : s.Rested) (h : s.append message priority = some s') :
    s'.Rested ∧ (s.sendingInProgress → s'.sendingInProgress) := by
  have hqu : ∀ {queue : RingBuffer Message}, s.messageQueue.append message = some queue →
      queue.read = s.messageQueue.read := by
    intro queue hqu
    unfold RingBuffer.append at hqu
    split_ifs at hqu
    rw [← some.inj hqu]
  cases priority with
  | normalPriority =>
    obtain ⟨queue, happ, rfl⟩ := map_eq_some_iff.mp h
    exact ⟨fun hidle => ⟨(hqu happ).trans (hs hidle).1, (hs hidle).2⟩, id⟩
  | highPriority =>
    obtain ⟨queue, -, rfl⟩ := map_eq_some_iff.mp h
    exact ⟨hs, id⟩

theorem Rested.queueMessage (hs : s.Rested) (h : s.queueMessage cfg message priority = some s') :
    s'.Rested ∧ (s.sendingInProgress → s'.sendingInProgress) := by
  unfold Sender.queueMessage at h
  split_ifs at h
  · obtain ⟨t, happ, hrun⟩ := bind_eq_some_iff.mp h
    obtain ⟨ht, hsg⟩ := hs.append happ
    obtain ⟨hs', hsg'⟩ := ht.runMessageQueue hrun
    exact ⟨hs', hsg' ∘ hsg⟩
  · cases h
    exact ⟨hs, id⟩

theorem Rested.sending (hs : s.Rested) (hct : 0 < s.messageQueue.count)
    (h : s.runMessageQueue cfg true = some s') : s'.sendingInProgress := by
  rcases runMessageQueue_cases h with ⟨rfl, hreason⟩ | ⟨-, hsg, -⟩
  · rcases hreason with hsg | ⟨hread, -⟩ | hdown
    · exact hsg
    · by_contra hidle
      obtain ⟨hnone, -⟩ := hs (eq_false_of_not_eq_true hidle)
      rw [unread, hnone] at hread
      rw [count] at hct
      omega
    · cases hdown
  · exact hsg

/-- What is removed was read, so that the work is the same. -/
theorem work_finished (s : Sender) : s.finished.work = s.work := by
  unfold work tipLeft finished
  simp only [unread_removeAllRead, unreadTip_removeAllRead]

theorem count_finished (s : Sender) : s.finished.messageQueue.count = s.messageQueue.unread := by
  exact List.length_drop

end Sender

namespace Connection

variable {cfg : Config} {conn conn' : Connection} {behind : UInt8 × UInt8} {fuel : ℕ}
  {replies : List Reply} {event : Event} {reply : Reply}

/-- A read or the timer is pending, or a write whose completion goes on with the packets. -/
def Attends (cfg : Config) (conn : Connection) : Prop :=
  conn.readPending = true ∨ conn.timerPending = true ∨
    (conn.sender.sendingInProgress = true ∧ resumable conn.receiveStream = true ∧
      conn.receiver.InPackets cfg.toSettings conn.receiveStream)

/-- What a callback may do to the connection: add to what is sent. -/
structure Grows (conn conn' : Connection) : Prop where
  receiver : conn'.receiver = conn.receiver
  stream : conn'.receiveStream = conn.receiveStream
  read : conn'.readPending = conn.readPending
  timer : conn'.timerPending = conn.timerPending
  sending : conn.sender.sendingInProgress = true → conn'.sender.sendingInProgress = true
  rested : conn'.sender.Rested

theorem grows_refl (h : conn.sender.Rested) : Grows conn conn := ⟨rfl, rfl, rfl, rfl, id, h⟩

theorem Grows.trans {conn'' : Connection} (h : Grows conn conn') (h' : Grows conn' conn'') :
    Grows conn conn'' :=
  ⟨h'.receiver.trans h.receiver, h'.stream.trans h.stream, h'.read.trans h.read, h'.timer.trans h.timer,
    h'.sending ∘ h.sending, h'.rested⟩

theorem Grows.isUp (h : Grows conn conn') : conn'.isUp = conn.isUp := by
  unfold Connection.isUp
  rw [h.receiver]

theorem Grows.attends (h : Grows conn conn') (hconn : conn.Attends cfg) : conn'.Attends cfg := by
  unfold Attends at hconn ⊢
  rw [h.read, h.timer, h.stream, h.receiver]
  exact hconn.imp_right (Or.imp_right (And.imp_left h.sending))

theorem grows_runMessageQueue (h : conn.runMessageQueue cfg = some conn') (hrs : conn.sender.Rested) :
    Grows conn conn' := by
  obtain ⟨sender, hrun, rfl⟩ := map_eq_some_iff.mp h
  obtain ⟨hrs', hsg⟩ := hrs.runMessageQueue hrun
  exact ⟨rfl, rfl, rfl, rfl, hsg, hrs'⟩

theorem grows_queueMessage {reply : Message × MessagePriority}
    (h : conn.queueMessage cfg reply = some conn') (hrs : conn.sender.Rested) : Grows conn conn' := by
  obtain ⟨sender, hqu, rfl⟩ := map_eq_some_iff.mp h
  obtain ⟨hrs', hsg⟩ := hrs.queueMessage hqu
  exact ⟨rfl, rfl, rfl, rfl, hsg, hrs'⟩

theorem grows_replies (h : reply.foldlM (queueMessage cfg) conn = some conn')
    (hrs : conn.sender.Rested) : Grows conn conn' := by
  induction reply generalizing conn with
  | nil =>
    cases h
    exact grows_refl hrs
  | cons message reply ih =>
    obtain ⟨conn1, hqu, hrest⟩ := bind_eq_some_iff.mp h
    have hgr := grows_queueMessage hqu hrs
    exact hgr.trans (ih hrest hgr.rested)

theorem grows_answer {c : Receiver} (h : conn.answer cfg reply c = some conn')
    (hrs : conn.sender.Rested) : Grows { conn with receiver := c } conn' := by
  unfold answer at h
  split_ifs at h
  · exact grows_replies h hrs
  · exact grows_queueMessage h hrs
  · cases h
    exact grows_refl hrs

/-- It reads on or sets the timer. -/
theorem requestMoreBytes_spec (h : conn.requestMoreBytes_callback cfg = some conn')
    (hrs : conn.sender.Rested) (hup : conn.isUp) : conn'.readPending = true ∨ conn'.timerPending := by
  unfold requestMoreBytes_callback at h
  split_ifs at h
  · cases h
    exact .inl rfl
  · exact .inr (grows_runMessageQueue h hrs).timer

/-! ### The loop over the packets -/

/-- The loop is left with a read, the timer or whole packets to come, and no chunk refused. -/
def loopWakes (cfg : Config) (behind : UInt8 × UInt8) : ℕ → List Reply → Connection → Prop
  | fuel, replies, conn =>
    if conn.receiveStream.length < 4 ∨ conn.readPending ∨ conn.timerPending then True
    else if conn.mustSend cfg then conn.receiver.InPackets cfg.toSettings conn.receiveStream
    else
      match fuel with
      | 0 => True
      | fuel + 1 =>
        conn.receiver.refusesChunk cfg.toSettings behind conn.receiveStream = false ∧
          match conn.receiver.turn cfg.toSettings behind conn.receiveStream with
          | .goesOn c taken =>
            ∀ next, conn.answer cfg (replies.headD []) c = some next →
              loopWakes cfg behind fuel replies.tail
                { next with receiveStream := next.receiveStream.drop taken }
          | _ => True

/-- The ways in which the loop over the packets ends. -/
inductive LoopEnds (cfg : Config) (behind : UInt8 × UInt8) :
    ℕ → List Reply → Connection → Connection → Prop
  | short {fuel : ℕ} {replies : List Reply} {conn conn' : Connection} : conn.receiveStream.length < 4 →
      conn.requestMoreBytes_callback cfg = some conn' → LoopEnds cfg behind fuel replies conn conn'
  | held {fuel : ℕ} {replies : List Reply} {conn conn' : Connection} : 4 ≤ conn.receiveStream.length →
      conn.mustSend cfg = true → conn.runMessageQueue cfg = some conn' →
        LoopEnds cfg behind fuel replies conn conn'
  | waits {fuel : ℕ} {replies : List Reply} {conn conn' : Connection} (c : Receiver) :
      4 ≤ conn.receiveStream.length → conn.mustSend cfg = false →
      conn.receiver.turn cfg.toSettings behind conn.receiveStream = .waits c →
      requestMoreBytes_callback cfg { conn with receiver := c } = some conn' →
      LoopEnds cfg behind (fuel + 1) replies conn conn'
  | returns {fuel : ℕ} {replies : List Reply} {conn : Connection} (c : Receiver) :
      4 ≤ conn.receiveStream.length → conn.mustSend cfg = false →
      conn.receiver.turn cfg.toSettings behind conn.receiveStream = .returns c →
      LoopEnds cfg behind (fuel + 1) replies conn { conn with receiver := c }
  | goesOn {fuel : ℕ} {replies : List Reply} {conn conn' : Connection} (c : Receiver) (taken : ℕ)
    (next : Connection) :
      4 ≤ conn.receiveStream.length → conn.mustSend cfg = false →
      conn.receiver.turn cfg.toSettings behind conn.receiveStream = .goesOn c taken →
      conn.answer cfg (replies.headD []) c = some next →
      LoopEnds cfg behind fuel replies.tail
        { next with receiveStream := next.receiveStream.drop taken } conn' →
      LoopEnds cfg behind (fuel + 1) replies conn conn'

theorem loop_ends (h : conn.loop cfg behind fuel replies = some conn') :
    LoopEnds cfg behind fuel replies conn conn' := by
  induction fuel generalizing conn replies with
  | zero =>
    unfold loop at h
    split_ifs at h with hsh hmust
    · exact .short hsh h
    · exact .held (not_lt.mp hsh) hmust h
  | succ fuel ih =>
    unfold loop at h
    split_ifs at h with hsh hmust
    · exact .short hsh h
    · exact .held (not_lt.mp hsh) hmust h
    · have hlen := not_lt.mp hsh
      have hroom := eq_false_of_not_eq_true hmust
      cases hturn : conn.receiver.turn cfg.toSettings behind conn.receiveStream with
      | waits c =>
        rw [hturn] at h
        exact .waits c hlen hroom hturn h
      | returns c =>
        rw [hturn] at h
        cases h
        exact .returns c hlen hroom hturn
      | goesOn c taken =>
        rw [hturn] at h
        obtain ⟨next, hans, hrest⟩ := bind_eq_some_iff.mp h
        exact .goesOn c taken next hlen hroom hturn hans (ih hrest)

/-- What goes on through the loop: pending operations stay so and the sender stays in order. -/
structure Continues (conn conn' : Connection) : Prop where
  rested : conn'.sender.Rested
  read : conn.readPending = true → conn'.readPending = true
  timer : conn.timerPending = true → conn'.timerPending = true
  stream : conn'.receiveStream.length ≤ conn.receiveStream.length

theorem requestMoreBytes_continues (h : conn.requestMoreBytes_callback cfg = some conn')
    (hrs : conn.sender.Rested) :
    Continues conn conn' := by
  unfold requestMoreBytes_callback at h
  split_ifs at h
  · cases h
    exact ⟨hrs, fun _ => rfl, id, le_rfl⟩
  · have hgr := grows_runMessageQueue h hrs
    exact ⟨hgr.rested, hgr.read.trans, fun _ => hgr.timer, hgr.stream.symm ▸ le_rfl⟩
  · cases h
    exact ⟨hrs, id, id, le_rfl⟩

theorem LoopEnds.continues (h : LoopEnds cfg behind fuel replies conn conn') (hrs : conn.sender.Rested) :
    Continues conn conn' := by
  induction h with
  | short hsh hreq => exact requestMoreBytes_continues hreq hrs
  | held hlen hmust hrun =>
    have hgr := grows_runMessageQueue hrun hrs
    exact ⟨hgr.rested, hgr.read.trans, hgr.timer.trans, by rw [hgr.stream]⟩
  | waits c hlen hmust hturn hreq =>
    have hcont := requestMoreBytes_continues hreq hrs
    exact ⟨hcont.rested, hcont.read, hcont.timer, hcont.stream⟩
  | returns c hlen hmust hturn => exact ⟨hrs, id, id, le_rfl⟩
  | goesOn c taken next hlen hmust hturn hans hrest ih =>
    have hgr := grows_answer hans hrs
    have hcont := ih hgr.rested
    refine ⟨hcont.rested, fun hread => hcont.read (hgr.read.trans hread),
      fun htm => hcont.timer (hgr.timer.trans htm), hcont.stream.trans ?_⟩
    rw [List.length_drop, hgr.stream]
    exact Nat.sub_le _ _

theorem loopWakes_turn (hwk : conn.loopWakes cfg behind (fuel + 1) replies)
    (hlen : 4 ≤ conn.receiveStream.length) (hidle : ¬ (conn.readPending ∨ conn.timerPending))
    (hmust : conn.mustSend cfg = false) :
    conn.receiver.refusesChunk cfg.toSettings behind conn.receiveStream = false ∧
      ∀ {c taken next}, conn.receiver.turn cfg.toSettings behind conn.receiveStream = .goesOn c taken →
        conn.answer cfg (replies.headD []) c = some next →
        loopWakes cfg behind fuel replies.tail
          { next with receiveStream := next.receiveStream.drop taken } := by
  unfold loopWakes at hwk
  rw [if_neg (not_or.mpr ⟨not_lt.mpr hlen, hidle⟩), if_neg (by rw [hmust]; decide)] at hwk
  refine ⟨hwk.1, fun {c taken next} hturn hans => ?_⟩
  have hrest := hwk.2
  rw [hturn] at hrest
  exact hrest next hans

/-- In a stream of whole packets the loop may be left at any of them. -/
theorem loopWakes_of_inPackets (h : conn.receiver.InPackets cfg.toSettings conn.receiveStream)
    (hrs : conn.sender.Rested) : conn.loopWakes cfg behind fuel replies := by
  induction fuel generalizing conn replies with
  | zero =>
    unfold loopWakes
    split_ifs
    · exact h
    · trivial
  | succ fuel ih =>
    unfold loopWakes
    split_ifs with hpen
    · exact h
    · cases h with
      | rest hshort => exact absurd (.inl hshort) hpen
      | packet _ _ hrefs hnext =>
        refine ⟨hrefs behind, ?_⟩
        cases hturn : conn.receiver.turn cfg.toSettings behind conn.receiveStream with
        | waits c => trivial
        | returns c => trivial
        | goesOn c taken =>
          intro next hans
          have hgr := grows_answer hans hrs
          refine ih ?_ hgr.rested
          show next.receiver.InPackets cfg.toSettings (next.receiveStream.drop taken)
          rw [hgr.receiver, hgr.stream]
          exact hnext behind c taken hturn

variable (h : LoopEnds cfg behind fuel replies conn conn')

include h

section

variable (hrs : conn.sender.Rested) (hup : conn.isUp)
include hrs hup

/-- Nothing else is pending: the connection attends by what the loop does itself. -/
theorem LoopEnds.attends_of_idle (hidle : ¬ (conn.readPending ∨ conn.timerPending))
    (hwk : conn.loopWakes cfg behind fuel replies) : conn'.isUp → conn'.Attends cfg := by
  induction h with
  | short hsh hreq => exact fun _ => (requestMoreBytes_spec hreq hrs hup).imp_right .inl
  | @held fuel replies conn conn' hlen hmust hrun =>
    intro _
    have hct : cfg.forceSendLimit < conn.sender.messageQueue.count := of_decide_eq_true hmust
    unfold loopWakes at hwk
    rw [if_neg (not_or.mpr ⟨not_lt.mpr hlen, hidle⟩), if_pos hmust] at hwk
    obtain ⟨sender, hsdr, rfl⟩ := map_eq_some_iff.mp hrun
    rw [hup] at hsdr
    have hresm : resumable conn.receiveStream := by
      cases hwk with
      | rest hshort => omega
      | packet hlong hwhole => exact decide_eq_true ⟨hlong, hwhole⟩
    exact .inr (.inr ⟨hrs.sending (by omega) hsdr, hresm, hwk⟩)
  | @waits fuel replies conn conn' c hlen hmust hturn hreq =>
    intro _
    have hset := Receiver.turn_settled (loopWakes_turn hwk hlen hidle hmust).1
    rw [hturn] at hset
    have hup' : decide (c.status = .up) := decide_eq_true (hset.trans (of_decide_eq_true hup))
    exact (requestMoreBytes_spec hreq hrs hup').imp_right .inl
  | @returns fuel replies conn c hlen hmust hturn =>
    have hset := Receiver.turn_settled (loopWakes_turn hwk hlen hidle hmust).1
    rw [hturn] at hset
    exact fun hsl => absurd (of_decide_eq_true hsl) hset
  | @goesOn fuel replies conn conn' c taken next hlen hmust hturn hans hrest ih =>
    obtain ⟨hrefs, hnext⟩ := loopWakes_turn hwk hlen hidle hmust
    have hset := Receiver.turn_settled hrefs
    rw [hturn] at hset
    have hgr := grows_answer hans hrs
    have hup' : next.isUp := by
      rw [hgr.isUp]
      exact decide_eq_true (hset.trans (of_decide_eq_true hup))
    have hidle' : ¬ (next.readPending ∨ next.timerPending) := by
      rw [hgr.read, hgr.timer]
      exact hidle
    exact ih hgr.rested hup' hidle' (hnext hturn hans)

theorem LoopEnds.attends (hwk : conn.loopWakes cfg behind fuel replies) :
    conn'.isUp = true → conn'.Attends cfg := by
  by_cases hidle : conn.readPending ∨ conn.timerPending
  · have hcont := h.continues hrs
    exact fun _ => hidle.elim (fun hread => .inl (hcont.read hread)) fun htm =>
      .inr (.inl (hcont.timer htm))
  · exact h.attends_of_idle hrs hup hidle hwk

/-- The loop takes a packet, comes to a read or the timer, goes down or is held back at once. -/
theorem LoopEnds.stream_lt (hwk : conn.loopWakes cfg behind fuel replies)
    (hidle : ¬ (conn'.readPending ∨ conn'.timerPending)) (hup' : conn'.isUp) :
    conn'.receiveStream.length < conn.receiveStream.length ∨
      conn'.receiveStream = conn.receiveStream ∧ conn.mustSend cfg ∧
        conn.runMessageQueue cfg = some conn' := by
  have hst : ¬ (conn.readPending ∨ conn.timerPending) :=
    fun hpen => hidle (hpen.imp (h.continues hrs).read (h.continues hrs).timer)
  cases h with
  | short hsh hreq => exact absurd (requestMoreBytes_spec hreq hrs hup) hidle
  | held hlen hmust hrun => exact .inr ⟨(grows_runMessageQueue hrun hrs).stream, hmust, hrun⟩
  | waits c hlen hmust hturn hreq =>
    have hset := Receiver.turn_settled (loopWakes_turn hwk hlen hst hmust).1
    rw [hturn] at hset
    have hupc : decide (c.status = .up) := decide_eq_true (hset.trans (of_decide_eq_true hup))
    exact absurd (requestMoreBytes_spec hreq hrs hupc) hidle
  | returns c hlen hmust hturn =>
    have hset := Receiver.turn_settled (loopWakes_turn hwk hlen hst hmust).1
    rw [hturn] at hset
    exact absurd (of_decide_eq_true hup') hset
  | goesOn c taken next hlen hmust hturn hans hrest =>
    have hgr := grows_answer hans hrs
    have hshorter := (hrest.continues hgr.rested).stream
    have htaken := Receiver.turn_taken hturn
    rw [List.length_drop, hgr.stream] at hshorter
    exact .inl (hshorter.trans_lt (by show conn.receiveStream.length - taken < _; omega))

end

omit h

/-- The loop after more bytes have arrived. -/
def receiveWakes (cfg : Config) (bytes : Bytes) (around : Surroundings) (conn : Connection) : Prop :=
  let stream := conn.receiveStream ++ bytes
  loopWakes cfg around.behind stream.length around.replies { conn with receiveStream := stream }

/-- Where the event stops the reading it can be taken up again: no write fails meanwhile, and the
loop is only left in front of whole packets. -/
def Wakes (cfg : Config) (conn : Connection) : Event → Prop
  | .received bytes around => receiveWakes cfg bytes around { conn with readPending := false }
  | .sendFailed => conn.readPending = true ∨ conn.timerPending = true
  | _ => True

/-- A read is pending, the timer that asks for one, or a write each of whose completions leads to one
or takes the connection down. -/
inductive Listens (cfg : Config) : Connection → Prop
  | reading {conn : Connection} : conn.readPending = true → Listens cfg conn
  | throttled {conn : Connection} : conn.timerPending = true → Listens cfg conn
  | sending {conn : Connection} : conn.sender.sendingInProgress = true →
      (∀ around, (conn.step cfg (.sent around)).isUp = true →
        Listens cfg (conn.step cfg (.sent around))) →
      Listens cfg conn

theorem isUp_close (conn : Connection) : conn.close.isUp = false := rfl

/-- An event that leaves the connection up was handled without a failed assertion. -/
theorem handle_of_isUp (henabled : conn.enabled event) (hup : (conn.step cfg event).isUp) :
    conn.handle cfg event = some (conn.step cfg event) := by
  unfold step at hup ⊢
  rw [if_pos henabled] at hup ⊢
  cases hres : conn.handle cfg event with
  | none =>
    rw [hres] at hup
    cases hup
  | some next => rfl

theorem received_ends {bytes : Bytes} {around : Surroundings}
    (h : conn.receivedSomeBytes cfg bytes around = some conn') :
    LoopEnds cfg around.behind (conn.receiveStream ++ bytes).length around.replies
      { conn with receiveStream := conn.receiveStream ++ bytes } conn' :=
  loop_ends h

/-- The order in which the writes get on: packets taken first, then the work of the sender. -/
def ahead (conn : Connection) : ℕ ×ₗ ℕ ×ₗ ℕ := toLex (conn.receiveStream.length, conn.sender.work)

/-- A connection that is held back again right after a write has sent something since. -/
theorem work_lt_of_held {next : Connection} (hup : conn.isUp)
    (hrun : runMessageQueue cfg { conn with sender := conn.sender.finished } = some next)
    (hmust : next.mustSend cfg) (hrun' : next.runMessageQueue cfg = some conn') :
    conn'.sender.work < conn.sender.work := by
  obtain ⟨sender, hsdr, rfl⟩ := map_eq_some_iff.mp hrun
  obtain ⟨sender', hsdr', rfl⟩ := map_eq_some_iff.mp hrun'
  replace hsdr : conn.sender.finished.runMessageQueue cfg conn.isUp = some sender := hsdr
  replace hmust : cfg.forceSendLimit < sender.messageQueue.count := of_decide_eq_true hmust
  rcases Sender.runMessageQueue_cases hsdr with ⟨rfl, hreason⟩ | ⟨-, hsg, hless⟩
  · -- nothing was left to send, so that the queue is empty
    rw [Sender.count_finished] at hmust
    rcases hreason with hsg | ⟨hread, -⟩ | hdown
    · cases hsg
    · have hnone : conn.sender.messageQueue.removeAllRead.unread = 0 := hread
      rw [unread_removeAllRead] at hnone
      omega
    · rw [hup] at hdown
      cases hdown
  · have hlt := hless (conn.sender.rested_finished rfl).2
    rw [Sender.work_finished] at hlt
    rcases Sender.runMessageQueue_cases hsdr' with ⟨rfl, -⟩ | ⟨hidle, -, -⟩
    · exact hlt
    · exact absurd hsg (by rw [show sender.sendingInProgress = false from hidle]; decide)

/-- The induction is on the bytes that arrived, then on the work of the sender: a connection that is
held back again has taken a packet or sent something. -/
theorem listens_of_sending (hrs : conn.sender.Rested) (hup : conn.isUp)
    (hsg : conn.sender.sendingInProgress) (hresm : resumable conn.receiveStream)
    (hin : conn.receiver.InPackets cfg.toSettings conn.receiveStream) : Listens cfg conn := by
  induction hahead : conn.ahead using WellFoundedLT.induction generalizing conn with
  | ind a ih =>
    subst hahead
    refine .sending hsg fun around hup' => ?_
    have henabled : conn.enabled (.sent around) := by
      unfold enabled
      rw [hup, hsg, Bool.and_self]
    have hhn := handle_of_isUp henabled hup'
    generalize conn.step cfg (.sent around) = conn' at hup' hhn ⊢
    obtain ⟨next, hrun, hrest⟩ := bind_eq_some_iff.mp hhn
    have hgr := grows_runMessageQueue hrun conn.sender.rested_finished
    have hnext : resumable next.receiveStream := by
      rw [hgr.stream]
      exact hresm
    have hnextUp : next.isUp := hgr.isUp.trans hup
    rw [if_pos hnext] at hrest
    have hends := received_ends hrest
    simp only [List.append_nil] at hends
    have hloop : next.loopWakes cfg around.behind next.receiveStream.length around.replies := by
      refine loopWakes_of_inPackets ?_ hgr.rested
      rw [hgr.receiver, hgr.stream]
      exact hin
    rcases hends.attends hgr.rested hnextUp hloop hup' with hread | htm | ⟨hagain, hresm', hin'⟩
    · exact .reading hread
    · exact .throttled htm
    by_cases hpen : conn'.readPending ∨ conn'.timerPending
    · exact hpen.elim .reading .throttled
    have hless : conn'.ahead < conn.ahead := by
      rcases hends.stream_lt hgr.rested hnextUp hloop hpen hup' with hshorter | ⟨hsame, hmust, hrun'⟩
      · rw [hgr.stream] at hshorter
        exact Prod.Lex.toLex_lt_toLex.mpr (.inl hshorter)
      · refine Prod.Lex.toLex_lt_toLex.mpr (.inr ⟨?_, work_lt_of_held hup hrun hmust hrun'⟩)
        exact congrArg List.length (hsame.trans hgr.stream)
    exact ih _ hless (hends.continues hgr.rested).rested hup' hagain hresm' hin' rfl

/-- A connection that is up and waits has something under way. -/
structure Awake (cfg : Config) (conn : Connection) : Prop where
  rested : conn.sender.Rested
  attends : conn.isUp = true → conn.Attends cfg

/-- Nothing is asked of a write that goes well. -/
theorem Awake.handle_sent (h : conn.Awake cfg) (hup : conn.isUp)
    (hhn : conn.handle cfg (.sent around) = some conn') : conn'.Awake cfg := by
  obtain ⟨next, hrun, hrest⟩ := bind_eq_some_iff.mp hhn
  have hgr := grows_runMessageQueue hrun conn.sender.rested_finished
  by_cases hresm : resumable next.receiveStream
  · rw [if_pos hresm] at hrest
    have hends := received_ends hrest
    have hcont := hends.continues hgr.rested
    refine ⟨hcont.rested, fun hup' => ?_⟩
    rcases h.attends hup with hread | htm | ⟨-, -, hin⟩
    · exact .inl (hcont.read (hgr.read.trans hread))
    · exact .inr (.inl (hcont.timer (hgr.timer.trans htm)))
    · refine hends.attends hgr.rested (hgr.isUp.trans hup) (loopWakes_of_inPackets ?_ hgr.rested) hup'
      show next.receiver.InPackets cfg.toSettings (next.receiveStream ++ [])
      rw [List.append_nil, hgr.receiver, hgr.stream]
      exact hin
  · rw [if_neg hresm] at hrest
    cases hrest
    refine ⟨hgr.rested, fun _ => ?_⟩
    rcases h.attends hup with hread | htm | ⟨-, hsl, -⟩
    · exact .inl (hgr.read.trans hread)
    · exact .inr (.inl (hgr.timer.trans htm))
    · rw [hgr.stream] at hresm
      exact absurd hsl hresm

theorem Awake.handle (h : conn.Awake cfg) (henabled : conn.enabled event) (hwk : conn.Wakes cfg event)
    (hhn : conn.handle cfg event = some conn') : conn'.Awake cfg := by
  have hup : conn.isUp := by
    cases event <;> simp_all [enabled]
  cases event with
  | queue message priority =>
    have hgr := grows_queueMessage hhn h.rested
    exact ⟨hgr.rested, fun _ => hgr.attends (h.attends hup)⟩
  | run =>
    have hgr := grows_runMessageQueue hhn h.rested
    exact ⟨hgr.rested, fun _ => hgr.attends (h.attends hup)⟩
  | sent around => exact h.handle_sent hup hhn
  | sendFailed =>
    cases hhn
    exact ⟨conn.sender.rested_failed, fun _ => Or.elim hwk .inl (.inr ∘ .inl)⟩
  | received bytes around =>
    have hends := received_ends hhn
    exact ⟨(hends.continues h.rested).rested, hends.attends h.rested hup hwk⟩
  | receiveFailed =>
    cases hhn
    exact ⟨h.rested, fun hsl => absurd hsl (by rw [isUp_close]; decide)⟩
  | timer =>
    have hreq : requestMoreBytes_callback cfg { conn with timerPending := false } = some conn' := hhn
    refine ⟨(requestMoreBytes_continues hreq h.rested).rested, fun _ => ?_⟩
    exact (requestMoreBytes_spec hreq h.rested hup).imp_right .inl
  | disconnect =>
    cases hhn
    exact ⟨h.rested, fun hsl => absurd hsl (by rw [isUp_close]; decide)⟩

theorem Awake.step (h : conn.Awake cfg) (hwk : conn.enabled event → conn.Wakes cfg event) :
    (conn.step cfg event).Awake cfg := by
  unfold Connection.step
  split_ifs with henabled
  · cases hhn : conn.handle cfg event with
    | none => exact ⟨h.rested, fun hsl => absurd hsl (by rw [getD_none, isUp_close]; decide)⟩
    | some next => exact h.handle henabled (hwk henabled) hhn
  · exact h

theorem Awake.run {events : List Event} (h : conn.Awake cfg)
    (hwk : Runs.Along (Connection.step cfg) (fun conn event => conn.enabled event = true →
      conn.Wakes cfg event) conn events) :
    (events.foldl (Connection.step cfg) conn).Awake cfg := by
  induction events generalizing conn with
  | nil => exact h
  | cons event events ih => exact ih (h.step hwk.1) hwk.2

theorem Awake.listens (h : conn.Awake cfg) (hup : conn.isUp) : Listens cfg conn := by
  rcases h.attends hup with hread | htm | ⟨hsg, hresm, hin⟩
  · exact .reading hread
  · exact .throttled htm
  · exact listens_of_sending h.rested hup hsg hresm hin

/-- If every stop of the reading can be taken up again, the connection listens until it goes down.
-/
theorem listens_along (cfg : Config) (accept : Bool) (main priority : ℕ) (events : List Event)
    (hwakes : Runs.Along (step cfg) (fun conn event => conn.enabled event = true → conn.Wakes cfg event)
      (initial accept main priority) events)
    (hup : (events.foldl (step cfg) (initial accept main priority)).isUp = true) :
    Listens cfg (events.foldl (step cfg) (initial accept main priority)) :=
  (Awake.run ⟨Sender.rested_initial main priority, fun _ => .inl rfl⟩ hwakes).listens hup

/-- The limits that `setMessageQueueSizes(4, 4)` sets. -/
def narrow : Config :=
  { toSettings := Incoming.plain, messageIds := fun _ => none, checksum := fun _ => [],
    forceSendLimit := 0, throttleReceiveAtSendLimitL1 := 2 }

/-- A packet that is there in full is left for later while a message is being sent. -/
theorem listens_along_whole_packet :
    Listens narrow ([.queue (.ofPayload [7] 16 (-1)) .normalPriority,
      .received [6, 0, 8, 16, 4, 7] ⟨(0, 0), []⟩].foldl (step narrow) (initial false 4 4)) := by
  apply listens_along
  · refine ⟨fun _ => trivial, fun _ => ?_, trivial⟩
    have hone : ∀ (c : Receiver) behind, c = .initial false →
        ∃ d, c.turn narrow.toSettings behind [6, 0, 8, 16, 4, 7] = .goesOn d 6 := by
      rintro c behind rfl
      exact ⟨_, rfl⟩
    refine .packet (by decide) (by decide) (fun behind => rfl) fun behind d taken hturn => ?_
    obtain ⟨d', hturn'⟩ := hone _ behind rfl
    cases hturn'.symm.trans hturn
    exact .rest (by decide)
  · decide +kernel

/-- Four bytes arrive while a message is sent; afterwards the connection is up and nothing is under
way. -/
theorem deaf_after_four_bytes : ∃ events : List Event,
    (events.foldl (step narrow) (initial false 4 4)).isUp = true ∧
      (events.foldl (step narrow) (initial false 4 4)).readPending = false ∧
      (events.foldl (step narrow) (initial false 4 4)).timerPending = false ∧
      (events.foldl (step narrow) (initial false 4 4)).sender.sendingInProgress = false := by
  refine ⟨[.queue (.ofPayload [7] 16 (-1)) .normalPriority, .received [6, 0, 8, 16] ⟨(0, 0), []⟩,
    .sent ⟨(0, 0), []⟩], ?_⟩
  decide +kernel

end Connection

end FloweeHub.Network
