import FloweeHub.Network.Receive

/-! What is received and how the stream was cut. A receiver that looks at the bytes of a packet only
does not depend on the cuts; the connection makes the same turns as long as no header is read from
bytes behind its packet and no chunk is too long. -/

namespace FloweeHub.Network

open Lib Streaming Relation List Receiver Incoming

/-! ### The receiver that keeps to the packet -/

/-- The packet itself, or the four bytes that the loop waits for. -/
def sure (stream : Bytes) : ℕ := max (packetLength stream) 4 - 2

def own (stream : Bytes) : Bytes := ((stream.drop 2).take (packetLength stream)).take (sure stream)

def beyond (stream : Bytes) (behind : UInt8 × UInt8) : Bytes := (window stream behind).drop (sure stream)

def Turn.step : Turn → Option (Receiver × ℕ)
  | .waits _ => none
  | .returns c => some (c, 0)
  | .goesOn c taken => some (c, taken)

namespace Receiver

def afterFirst (s : Settings) (stream : Bytes) (c : Receiver) : Receiver :=
  let c := { c with firstPacket := false }
  if firstRefused s stream then c.close else c

/-- The turns of a receiver that keeps to the packet; the first check is one of its own. -/
def strictTurn (s : Settings) (c : Receiver) (stream : Bytes) : Option (Receiver × ℕ) :=
  if c.status = .up ∧ 4 ≤ stream.length then
    if c.firstPacket then some (c.afterFirst s stream, 0) else (c.packetTurn s (own stream) stream).step
  else none

end Receiver

section Append

variable {s : Settings} {c c' : Receiver} {bs : Bytes} {n : ℕ}

theorem packetLength_append (h : 4 ≤ bs.length) (rest : Bytes) :
    packetLength (bs ++ rest) = packetLength bs := by
  rw [packetLength, take_append_of_le_length (by omega), packetLength]

theorem bodyLength_append (h : LEGACY_HEADER_SIZE ≤ bs.length) (rest : Bytes) :
    bodyLength (bs ++ rest) = bodyLength bs := by
  have h' : 24 ≤ bs.length := h
  rw [bodyLength, drop_append_of_le_length (by omega),
    take_append_of_le_length (by rw [length_drop]; omega), bodyLength]

section

variable (h : 4 ≤ bs.length) (hlen : packetLength bs ≤ bs.length)
include h hlen

theorem take_take_drop_append (rest : Bytes) :
    (((bs ++ rest).drop 2).take (packetLength bs)).take (sure bs) = own bs := by
  rw [own, take_take, take_take, drop_append_of_le_length (by omega),
    take_append_of_le_length (by rw [length_drop, sure]; omega)]

theorem own_append (rest : Bytes) : own (bs ++ rest) = own bs := by
  rw [← take_take_drop_append h hlen rest, own, sure, sure, packetLength_append h]

theorem window_eq (behind : UInt8 × UInt8) : window bs behind = own bs ++ beyond bs behind := by
  rw [← take_take_drop_append h hlen [behind.1, behind.2], beyond]
  exact (take_append_drop _ _).symm

end

namespace Receiver

theorem firstRefused_append (h : 4 ≤ bs.length) (rest : Bytes) :
    firstRefused s (bs ++ rest) = firstRefused s bs := by
  unfold firstRefused
  cases s.messageHeaderType with
  | floweeNative => simp only [getElem?_append_left (show 2 < bs.length by omega)]
  | legacyP2P => rfl

theorem legacyTurn_append (hturn : ∀ c', c.legacyTurn s bs ≠ .waits c') (rest : Bytes) :
    c.legacyTurn s (bs ++ rest) = c.legacyTurn s bs := by
  unfold legacyTurn at hturn ⊢
  rcases Nat.lt_or_ge bs.length LEGACY_HEADER_SIZE with hsh | hhd
  · rw [if_pos hsh] at hturn
    exact absurd rfl (hturn c)
  rw [bodyLength_append hhd, length_append, if_neg (by omega : ¬ bs.length < LEGACY_HEADER_SIZE),
    if_neg (by omega : ¬ bs.length + rest.length < LEGACY_HEADER_SIZE)]
  rw [if_neg (by omega : ¬ bs.length < LEGACY_HEADER_SIZE)] at hturn
  by_cases hcor : 32000000 < bodyLength bs
  · rw [if_pos hcor, if_pos hcor]
  rw [if_neg hcor, if_neg hcor]
  rw [if_neg hcor] at hturn
  by_cases hbody : bs.length < LEGACY_HEADER_SIZE + bodyLength bs
  · rw [if_pos hbody] at hturn
    exact absurd rfl (hturn c)
  rw [if_neg hbody, if_neg (by omega), take_append_of_le_length (by omega)]

theorem nativeTurn_append (h : 4 ≤ bs.length) (hturn : ∀ c', c.nativeTurn s (own bs) bs ≠ .waits c')
    (rest : Bytes) :
    c.nativeTurn s (own (bs ++ rest)) (bs ++ rest) = c.nativeTurn s (own bs) bs := by
  unfold nativeTurn at hturn ⊢
  rw [packetLength_append h, length_append]
  by_cases hcor : MAX_MESSAGE_SIZE < packetLength bs
  · rw [if_pos hcor, if_pos hcor]
  rw [if_neg hcor, if_neg hcor]
  rw [if_neg hcor] at hturn
  by_cases hsh : bs.length < packetLength bs
  · rw [if_pos hsh] at hturn
    exact absurd rfl (hturn c)
  rw [if_neg hsh, if_neg (by omega), own_append h (by omega), take_append_of_le_length (by omega)]

theorem packetTurn_append (h : 4 ≤ bs.length) (hturn : ∀ c', c.packetTurn s (own bs) bs ≠ .waits c')
    (rest : Bytes) :
    c.packetTurn s (own (bs ++ rest)) (bs ++ rest) = c.packetTurn s (own bs) bs := by
  unfold packetTurn at hturn ⊢
  split
  · exact nativeTurn_append h (by simpa only [*] using hturn) rest
  · exact legacyTurn_append (by simpa only [*] using hturn) rest

end Receiver

variable {result : Bool × Receiver}

theorem Turn.ofResult_goesOn {size : ℕ} (h : Turn.ofResult size result = .goesOn c n) :
    result = (true, c) ∧ n = size := by
  rcases result with ⟨_ | _, d⟩
  · cases h
  · cases h
    exact ⟨rfl, rfl⟩

theorem Receiver.packetTurn_taken {window : Bytes} (h : c.packetTurn s window bs = .goesOn c' n) :
    n ≤ bs.length := by
  unfold packetTurn at h
  split at h
  · unfold nativeTurn at h
    split_ifs at h with hcor hsh
    rw [(Turn.ofResult_goesOn h).2]
    omega
  · unfold legacyTurn at h
    split_ifs at h with hhd hcor hsh
    rw [(Turn.ofResult_goesOn h).2]
    omega

theorem Receiver.strictTurn_short (h : bs.length < 4) : c.strictTurn s bs = none :=
  if_neg fun hup => absurd hup.2 (not_le.mpr h)

theorem Receiver.strictTurn_eq_some (h : c.strictTurn s bs = some (c', n)) :
    c.status = .up ∧ 4 ≤ bs.length ∧ (c.firstPacket ∧ c' = c.afterFirst s bs ∧ n = 0 ∨
      c.firstPacket = false ∧ (c.packetTurn s (own bs) bs).step = some (c', n)) := by
  unfold strictTurn at h
  split_ifs at h with hup hfst
  · cases h
    exact ⟨hup.1, hup.2, .inl ⟨hfst, rfl, rfl⟩⟩
  · exact ⟨hup.1, hup.2, .inr ⟨Bool.eq_false_of_not_eq_true hfst, h⟩⟩

theorem Receiver.stable_strictTurn (s : Settings) : Incremental.Stable (strictTurn s) where
  taken := by
    intro c bs c' n h
    obtain ⟨-, -, ⟨-, -, rfl⟩ | ⟨-, hstep⟩⟩ := strictTurn_eq_some h
    · exact Nat.zero_le _
    · cases hturn : c.packetTurn s (own bs) bs with
      | waits d =>
        rw [hturn] at hstep
        cases hstep
      | returns d =>
        rw [hturn] at hstep
        cases hstep
        exact Nat.zero_le _
      | goesOn d taken =>
        rw [hturn] at hstep
        cases hstep
        exact packetTurn_taken hturn
  more := by
    intro c bs c' n rest h
    obtain ⟨hup, hlen, hcases⟩ := strictTurn_eq_some h
    have hlen' : 4 ≤ (bs ++ rest).length := by
      rw [length_append]
      omega
    rw [strictTurn, if_pos ⟨hup, hlen'⟩]
    rcases hcases with ⟨hfst, rfl, rfl⟩ | ⟨hfst, hstep⟩
    · rw [if_pos hfst, afterFirst, firstRefused_append hlen, afterFirst]
    · rw [if_neg (by rw [hfst]; decide), packetTurn_append hlen _ rest]
      · exact hstep
      · intro d hwt
        rw [hwt] at hstep
        cases hstep

end Append

/-- A packet that is done with leaves the connection as open as it was. -/
def Receiver.Settled (c : Receiver) (result : Bool × Receiver) : Prop :=
  if result.1 then result.2.status = c.status else result.2.status ≠ .up

namespace Receiver

variable {s : Settings} {c d : Receiver} {window packet bs : Bytes} {h : Header}

theorem settled_close (c d : Receiver) : c.Settled (false, d.close) := by
  simp [Settled, close]

theorem settled_deliver (hd : d.status = c.status) (message : Message) (acceptOnly : Bool) :
    c.Settled (d.deliver s message acceptOnly) := by
  unfold deliver
  dsimp only
  split_ifs
  · exact hd
  · exact settled_close c _

/-- A chunk that is refused although it belongs to the open sequence, or starts one. -/
def chunkRefused (h : Header) (packet : Bytes) (c : Receiver) : Bool :=
  h.serviceId ≠ -1 ∧ h.serviceId ≠ SystemServiceId ∧ h.lastInSequence ≠ -1 ∧ c.sequenceBroken h = false ∧
    (h.sequenceSize < -1 ∨ c.tooMuchData h packet)

theorem startSequence_status (h : Header) (c : Receiver) : (c.startSequence h).status = c.status := by
  unfold startSequence
  split_ifs <;> rfl

theorem settled_processChunk
    (hfits : c.sequenceBroken h = false → ¬ h.sequenceSize < -1 ∧ c.tooMuchData h packet = false) :
    c.Settled (c.processChunk s h packet) := by
  unfold processChunk
  by_cases hbrk : c.sequenceBroken h
  · rw [if_pos hbrk]
    exact settled_close c c
  · obtain ⟨hsize, hdata⟩ := hfits (Bool.eq_false_of_not_eq_true hbrk)
    rw [if_neg hbrk, if_neg hsize, if_neg (by rw [hdata]; decide)]
    split_ifs
    · exact startSequence_status h c
    · apply settled_deliver
      exact startSequence_status h c

theorem settled_processPacket
    (href : ∀ h, Header.read window = .header h → c.chunkRefused h packet = false) :
    c.Settled (c.processPacket s window packet) := by
  unfold processPacket
  cases hread : Header.read window with
  | closes => exact settled_close c c
  | hangs => simp [Settled]
  | header h =>
    dsimp only
    split_ifs with hnone hsystem hping hport hchunk
    · exact settled_close c c
    · exact settled_close c c
    · rfl
    · rfl
    · have hfits := href h hread
      simp only [chunkRefused, decide_eq_false_iff_not, not_and, not_or] at hfits
      refine settled_processChunk fun hbrk => ?_
      obtain ⟨hsize, hdata⟩ := hfits hnone hsystem hchunk hbrk
      exact ⟨hsize, Bool.eq_false_of_not_eq_true hdata⟩
    · exact settled_deliver rfl _ _

theorem settled_processLegacyPacket (s : Settings) (packet : Bytes) (c : Receiver) :
    c.Settled (c.processLegacyPacket s packet) := by
  unfold processLegacyPacket
  split
  · rfl
  · exact settled_deliver rfl _ _

end Receiver

/-! ### Turns that keep to the packet -/

namespace Receiver

variable {s : Settings} {c d : Receiver} {bs : Bytes} {behind : UInt8 × UInt8}

/-- The header of the next packet is read from its own bytes, and no chunk has too much data. -/
def contained (s : Settings) (behind : UInt8 × UInt8) (stream : Bytes) (c : Receiver) : Bool :=
  s.messageHeaderType = .legacyP2P || MAX_MESSAGE_SIZE < packetLength stream ||
    stream.length < packetLength stream ||
    (c.firstPacket && firstRefused s stream) ||
    (!Header.readsBeyond (own stream) (beyond stream behind) &&
      match Header.read (own stream) with
      | .header h => !c.chunkRefused h (stream.take (packetLength stream))
      | _ => true)

theorem chunkRefused_first (h : Header) (packet : Bytes) (c : Receiver) (b : Bool) :
    chunkRefused h packet { c with firstPacket := b } = c.chunkRefused h packet := by
  unfold chunkRefused tooMuchData startSequence
  split_ifs <;> rfl

/-- The check of the first bytes, once passed, does not count any more. -/
theorem contained_first (hfst : ¬ (c.firstPacket ∧ firstRefused s bs)) :
    contained s behind bs { c with firstPacket := false } = c.contained s behind bs := by
  have hps : (c.firstPacket && firstRefused s bs) = false := by
    rwa [← Bool.and_eq_true, Bool.not_eq_true] at hfst
  unfold contained
  simp only [chunkRefused_first, hps, Bool.false_and]

theorem contained_native (hcont : c.contained s behind bs)
    (hnative : s.messageHeaderType = .floweeNative) (hsize : ¬ MAX_MESSAGE_SIZE < packetLength bs)
    (hlen : ¬ bs.length < packetLength bs) (hfst : c.firstPacket = false) :
    Header.readsBeyond (own bs) (beyond bs behind) = false ∧
      ∀ h, Header.read (own bs) = .header h → c.chunkRefused h (bs.take (packetLength bs)) = false := by
  unfold contained at hcont
  rw [hnative, hfst, decide_eq_false hsize, decide_eq_false hlen] at hcont
  simp only [reduceCtorEq, decide_false, Bool.or_false, Bool.false_or, Bool.false_and, Bool.and_eq_true,
    Bool.not_eq_true'] at hcont
  refine ⟨hcont.1, fun h hread => ?_⟩
  have href := hcont.2
  rw [hread] at href
  simpa using href

/-- The turn waits as it is, ends the connection or keeps its status. -/
def SettledTurn (c : Receiver) : Turn → Prop
  | .waits d => d = c
  | .returns d => d.status ≠ .up
  | .goesOn d _ => d.status = c.status

theorem settledTurn_ofResult (size : ℕ) (h : c.Settled result) :
    c.SettledTurn (.ofResult size result) := by
  rcases result with ⟨_ | _, d⟩
  · exact h
  · exact h

theorem settledTurn_legacyTurn (s : Settings) (bs : Bytes) (c : Receiver) :
    c.SettledTurn (c.legacyTurn s bs) := by
  unfold legacyTurn
  split_ifs
  · rfl
  · simp [SettledTurn, close]
  · rfl
  · exact settledTurn_ofResult _ (settled_processLegacyPacket s _ c)

theorem settledTurn_nativeTurn {window : Bytes}
    (href : packetLength bs ≤ MAX_MESSAGE_SIZE → packetLength bs ≤ bs.length →
      ∀ h, Header.read window = .header h → c.chunkRefused h (bs.take (packetLength bs)) = false) :
    c.SettledTurn (c.nativeTurn s window bs) := by
  unfold nativeTurn
  split_ifs with hsize hlen
  · simp [SettledTurn, close]
  · rfl
  · exact settledTurn_ofResult _ (settled_processPacket (href (not_lt.mp hsize) (not_lt.mp hlen)))

/-- A turn on a contained packet is the one of the receiver that keeps to the packet. -/
theorem packetTurn_own (h : 4 ≤ bs.length) (hcont : c.contained s behind bs)
    (hfst : c.firstPacket = false) :
    c.packetTurn s (window bs behind) bs = c.packetTurn s (own bs) bs ∧
      c.SettledTurn (c.packetTurn s (own bs) bs) := by
  unfold packetTurn
  cases hnative : s.messageHeaderType with
  | legacyP2P => exact ⟨rfl, settledTurn_legacyTurn s bs c⟩
  | floweeNative =>
    have hpkt := fun hsize hlen => contained_native hcont hnative (not_lt.mpr hsize)
      (not_lt.mpr hlen) hfst
    refine ⟨?_, settledTurn_nativeTurn fun hsize hlen => (hpkt hsize hlen).2⟩
    unfold nativeTurn
    split_ifs with hsize hlen
    · rfl
    · rfl
    · have hread : Header.read (window bs behind) = Header.read (own bs) := by
        rw [window_eq h (not_lt.mp hlen)]
        exact (Header.loop_over rfl (hpkt (not_lt.mp hsize) (not_lt.mp hlen)).1).symm
      rw [processPacket, hread, processPacket]

theorem turn_strict (hup : c.status = .up) (h : 4 ≤ bs.length) (hcont : c.contained s behind bs) :
    match c.turn s behind bs with
    | .waits d => ReflTransGen (Incremental.Step (strictTurn s)) (c, bs) (d, bs) ∧ d.status = .up ∧
        strictTurn s d bs = none
    | .returns d => ReflTransGen (Incremental.Step (strictTurn s)) (c, bs) (d, bs) ∧ d.status ≠ .up
    | .goesOn d taken => ReflTransGen (Incremental.Step (strictTurn s)) (c, bs) (d, bs.drop taken) ∧
        d.status = .up := by
  unfold turn
  have hck : c.firstPacket → Incremental.Step (strictTurn s) (c, bs) (c.afterFirst s bs, bs) := by
    intro hfst
    refine ⟨0, ?_, rfl⟩
    rw [strictTurn, if_pos ⟨hup, h⟩, if_pos hfst]
  split_ifs with href
  · have haft : c.afterFirst s bs = close { c with firstPacket := false } := if_pos href.2
    have hstep := hck href.1
    rw [haft] at hstep
    exact ⟨.single hstep, by simp [close]⟩
  · -- the packet is looked at in the state in which the first bytes have been checked
    generalize hps : ({ c with firstPacket := false } : Receiver) = d
    have hst : ReflTransGen (Incremental.Step (strictTurn s)) (c, bs) (d, bs) := by
      by_cases hfst : c.firstPacket
      · have haft : c.afterFirst s bs = d := by
          rw [afterFirst, hps]
          exact if_neg fun hr => href ⟨hfst, hr⟩
        have hstep := hck hfst
        rw [haft] at hstep
        exact .single hstep
      · have hsame : d = c := by
          rw [← hps, ← Bool.eq_false_of_not_eq_true hfst]
        rw [hsame]
    have hdup : d.status = .up := by
      rw [← hps]
      exact hup
    have hdfirst : d.firstPacket = false := by rw [← hps]
    rw [← contained_first href, hps] at hcont
    obtain ⟨hown, hset⟩ := packetTurn_own h hcont hdfirst
    have hstr : strictTurn s d bs = (d.packetTurn s (own bs) bs).step := by
      rw [strictTurn, if_pos ⟨hdup, h⟩, if_neg (by rw [hdfirst]; decide)]
    rw [hown]
    cases hturn : d.packetTurn s (own bs) bs with
    | waits e =>
      rw [hturn] at hstr hset
      obtain rfl : e = d := hset
      exact ⟨hst, hdup, hstr⟩
    | returns e =>
      rw [hturn] at hstr hset
      exact ⟨hst.tail ⟨0, hstr, rfl⟩, hset⟩
    | goesOn e taken =>
      rw [hturn] at hstr hset
      exact ⟨hst.tail ⟨taken, hstr, rfl⟩, hset.trans hdup⟩

end Receiver

namespace Incoming

variable {s : Settings} {conn : Incoming} {c : Receiver} {fed bs : Bytes} {behind : UInt8 × UInt8}
  {call : Call} {start : Receiver × Bytes} {c0 : Receiver}

def loopContained (s : Settings) (behind : UInt8 × UInt8) : ℕ → Receiver → Bytes → Bool
  | 0, _, _ => true
  | room + 1, c, stream =>
    stream.length < 4 || (c.contained s behind stream &&
      match c.turn s behind stream with
      | .goesOn c taken => loopContained s behind room c (stream.drop taken)
      | _ => true)

/-- The bytes behind the packets do not matter to this call. -/
def Contained (s : Settings) (conn : Incoming) (call : Call) : Prop :=
  conn.receiver.status = .up →
    loopContained s call.behind call.room conn.receiver (conn.receiveStream ++ call.bytes) = true

instance (s : Settings) (conn : Incoming) (call : Call) : Decidable (Contained s conn call) :=
  inferInstanceAs (Decidable (_ → _))

/-- The receiver that keeps to the packet comes from `start` to where the connection is. -/
structure Follows (s : Settings) (start : Receiver × Bytes) (conn : Incoming) : Prop where
  reaches : ∃ stream, ReflTransGen (Incremental.Step (strictTurn s)) start (conn.receiver, stream) ∧
    (conn.receiver.status = .up → stream = conn.receiveStream)
  waits : conn.receiver.status = .up → conn.ending = .requests →
    strictTurn s conn.receiver conn.receiveStream = none
  returned : conn.ending = .returned → conn.receiver.status ≠ .up

theorem loop_follows {room : ℕ} (hup : c.status = .up)
    (hrcs : ReflTransGen (Incremental.Step (strictTurn s)) start (c, bs))
    (hcont : loopContained s behind room c bs) : Follows s start (loop s behind room c bs) := by
  induction room generalizing c bs with
  | zero =>
    unfold loop
    split_ifs with hsh
    · exact ⟨⟨bs, hrcs, fun _ => rfl⟩, fun _ _ => strictTurn_short hsh, by simp⟩
    · exact ⟨⟨bs, hrcs, fun _ => rfl⟩, by simp, by simp⟩
  | succ room ih =>
    unfold loop
    unfold loopContained at hcont
    split_ifs with hsh
    · exact ⟨⟨bs, hrcs, fun _ => rfl⟩, fun _ _ => strictTurn_short hsh, by simp⟩
    · rw [decide_eq_false hsh, Bool.false_or, Bool.and_eq_true] at hcont
      obtain ⟨hpkt, hrest⟩ := hcont
      have hturn := turn_strict hup (not_lt.mp hsh) hpkt
      cases hres : c.turn s behind bs with
      | waits d =>
        rw [hres] at hturn
        exact ⟨⟨bs, hrcs.trans hturn.1, fun _ => rfl⟩, fun _ _ => hturn.2.2, by simp⟩
      | returns d =>
        rw [hres] at hturn
        exact ⟨⟨bs, hrcs.trans hturn.1, fun _ => rfl⟩, by simp, fun _ => hturn.2⟩
      | goesOn d taken =>
        rw [hres] at hturn hrest
        exact ih hturn.2 (hrcs.trans hturn.1) hrest

theorem Follows.receivedSomeBytes (h : Follows s (c0, fed) conn) (hcont : Contained s conn call) :
    Follows s (c0, fed ++ call.bytes) (conn.receivedSomeBytes s call) := by
  obtain ⟨bs, hrcs, hstm⟩ := h.reaches
  have hmore := (stable_strictTurn s).append hrcs call.bytes
  unfold Incoming.receivedSomeBytes
  split_ifs with hup
  · rw [hstm hup] at hmore
    exact loop_follows hup hmore (hcont hup)
  · exact ⟨⟨_, hmore, fun h => absurd h hup⟩, fun h => absurd h hup, fun _ => hup⟩

/-- The calls follow the stream, however it is cut. -/
theorem follows_run {calls : List Call} (h : Follows s (c0, fed) conn)
    (hcont : Runs.Along (receivedSomeBytes s) (Contained s) conn calls) :
    Follows s (c0, fed ++ (calls.map Call.bytes).flatten) (calls.foldl (receivedSomeBytes s) conn) := by
  induction calls generalizing conn fed with
  | nil =>
    rw [map_nil, flatten_nil, append_nil]
    exact h
  | cons call calls ih =>
    rw [map_cons, flatten_cons, ← append_assoc]
    exact ih (h.receivedSomeBytes hcont.1) hcont.2

/-- A connection that is not held back has nothing left to do. -/
theorem Follows.done (h : Follows s start conn) (hheld : conn.ending ≠ .held) :
    ∃ bs, ReflTransGen (Incremental.Step (strictTurn s)) start (conn.receiver, bs) ∧
      strictTurn s conn.receiver bs = none := by
  obtain ⟨bs, hrcs, hstm⟩ := h.reaches
  refine ⟨bs, hrcs, ?_⟩
  by_cases hup : conn.receiver.status = .up
  · rw [hstm hup]
    apply h.waits hup
    cases hending : conn.ending with
    | requests => rfl
    | held => exact absurd hending hheld
    | returned => exact absurd hup (h.returned hending)
  · exact if_neg fun h => hup h.1

theorem follows_initial (s : Settings) (accept : Bool) :
    Follows s (Receiver.initial accept, []) (initial accept) := by
  exact ⟨⟨[], .refl, fun _ => rfl⟩, fun _ _ =>
    Receiver.strictTurn_short (show ([] : Bytes).length < 4 by decide), by simp [initial]⟩

/-- Two ways of handing over a stream have one outcome if every packet keeps its header within its
own bytes and has no more data than was announced. -/
theorem outcome_of_contained (s : Settings) (accept : Bool) (calls calls' : List Call)
    (hstream : (calls.map Call.bytes).flatten = (calls'.map Call.bytes).flatten)
    (hcontained : Runs.Along (receivedSomeBytes s) (Contained s) (initial accept) calls)
    (hcontained' : Runs.Along (receivedSomeBytes s) (Contained s) (initial accept) calls')
    (hheld : (calls.foldl (receivedSomeBytes s) (initial accept)).ending ≠ .held)
    (hheld' : (calls'.foldl (receivedSomeBytes s) (initial accept)).ending ≠ .held) :
    (calls.foldl (receivedSomeBytes s) (initial accept)).outcome =
      (calls'.foldl (receivedSomeBytes s) (initial accept)).outcome := by
  obtain ⟨bs, hrcs, hwt⟩ := (follows_run (follows_initial s accept) hcontained).done hheld
  obtain ⟨stream', hrcs', hwt'⟩ := (follows_run (follows_initial s accept) hcontained').done hheld'
  rw [hstream] at hrcs
  have hsame := Incremental.end_unique hrcs hwt hrcs' hwt'
  unfold outcome
  rw [(Prod.mk.inj hsame).1]

def plain : Settings :=
  { messageHeaderType := .floweeNative, networkId := [], messageIdsReverse := fun _ => none,
    peerPort := 1, announcePort := 0, staysOpen := fun _ => true }

theorem outcome_of_contained_cut :
    ([⟨[6, 0, 8, 16, 4, 7], (0, 0), 2⟩].foldl (receivedSomeBytes plain) (initial false)).outcome =
      ([⟨[6, 0, 8], (0, 0), 2⟩, ⟨[16, 4, 7], (8, 16), 2⟩].foldl (receivedSomeBytes plain)
        (initial false)).outcome := by
  apply outcome_of_contained
  · rfl
  · decide +kernel
  · decide +kernel
  · decide +kernel
  · decide +kernel

/-- The header of the first packet has no end: the length of the next one is read as it, if it is
there. -/
theorem outcome_cut_behind_packet : ∃ calls calls' : List Call,
    (calls.map Call.bytes).flatten = (calls'.map Call.bytes).flatten ∧
      (calls.foldl (receivedSomeBytes plain) (initial false)).ending ≠ .held ∧
      (calls'.foldl (receivedSomeBytes plain) (initial false)).ending ≠ .held ∧
      (calls.foldl (receivedSomeBytes plain) (initial false)).outcome ≠
        (calls'.foldl (receivedSomeBytes plain) (initial false)).outcome := by
  refine ⟨[⟨[4, 0, 8, 16, 4, 0], (0, 0), 2⟩], [⟨[4, 0, 8, 16], (8, 16), 2⟩, ⟨[4, 0], (0, 0), 2⟩], ?_⟩
  decide +kernel

end Incoming

end FloweeHub.Network
