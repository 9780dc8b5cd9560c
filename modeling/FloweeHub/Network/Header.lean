import FloweeHub.Streaming.Locality

/-! The header of a native packet, as `processPacket` reads it: a loop over the fields until
`HeaderEnd`. The parser covers two bytes more than the packet has. -/

namespace FloweeHub.Network

open Lib Streaming

def MAX_MESSAGE_SIZE : ℕ := 9000

/-- The tags of a packet header. -/
inductive HeaderTags
  | headerEnd
  | serviceId
  | messageId
  | sequenceStart
  | lastInSequence
  | ping
  | pong
deriving DecidableEq, Repr

def HeaderTags.code : HeaderTags → ℕ
  | .headerEnd => 0
  | .serviceId => 1
  | .messageId => 2
  | .sequenceStart => 3
  | .lastInSequence => 4
  | .ping => 5
  | .pong => 6

def SystemServiceId : ℤ := 126

/-- A `std::map<int, int>`, in the order of its keys. -/
abbrev HeaderData := List (ℕ × ℤ)

namespace HeaderData

def insert (name : ℕ) (value : ℤ) : HeaderData → HeaderData
  | [] => [(name, value)]
  | item :: items =>
    if name < item.1 then (name, value) :: item :: items
    else if name = item.1 then item :: items
    else item :: insert name value items

def set (name : ℕ) (value : ℤ) : HeaderData → HeaderData
  | [] => [(name, value)]
  | item :: items =>
    if name < item.1 then (name, value) :: item :: items
    else if name = item.1 then (name, value) :: items
    else item :: set name value items

def find (name : ℕ) (items : HeaderData) : Option ℤ :=
  (items.find? fun item => item.1 = name).map Prod.snd

end HeaderData

/-- The variables of `processPacket` that the loop sets. -/
structure Header where
  headerSize : ℕ
  messageId : ℤ
  serviceId : ℤ
  lastInSequence : ℤ
  sequenceSize : ℤ
  isPing : Bool
  messageHeaderData : HeaderData
deriving DecidableEq, Repr

namespace Header

def initial : Header :=
  { headerSize := 0, messageId := -1, serviceId := -1, lastInSequence := -1, sequenceSize := -1,
    isPing := false, messageHeaderData := [] }

/-- What a field of the header leads to. -/
inductive FieldResult
  | closes
  | ends (h : Header)
  | goesOn (h : Header)
deriving DecidableEq, Repr

/-- The `switch` on the tag of the field the parser stands on. -/
def field (p : MessageParser) (h : Header) : FieldResult :=
  if p.tag = HeaderTags.headerEnd.code then .ends { h with headerSize := p.position }
  else if p.tag = HeaderTags.messageId.code then
    if p.isInt then .goesOn { h with messageId := p.intData } else .closes
  else if p.tag = HeaderTags.serviceId.code then
    if p.isInt then .goesOn { h with serviceId := p.intData } else .closes
  else if p.tag = HeaderTags.lastInSequence.code then
    if p.isBool then .goesOn { h with lastInSequence := if p.boolData then 1 else 0 } else .closes
  else if p.tag = HeaderTags.sequenceStart.code then
    if p.isInt then .goesOn { h with sequenceSize := p.intData } else .closes
  else if p.tag = HeaderTags.ping.code then .goesOn { h with isPing := true }
  else if p.isInt ∧ p.tag < 0xFFFFFF then
    if p.tag < 10 then .closes
    else .goesOn { h with messageHeaderData := h.messageHeaderData.insert p.tag p.intData }
  else .goesOn h

/-- A byte array with a negative length moves the parser back, maybe for ever. -/
inductive Reading
  | closes
  | hangs
  | header (h : Header)
deriving DecidableEq, Repr

/-- The loop; a header without an end is malformed. -/
def loop : ℕ → MessageParser → Header → Reading
  | 0, _, _ => .hangs
  | fuel + 1, p, h =>
    match p.next with
    | (.foundTag, q) =>
      match h.field q with
      | .closes => .closes
      | .ends h => .header h
      | .goesOn h => loop fuel q h
    | (_, _) => .closes

/-- A loop of more turns than a packet has positions comes to one of them again. -/
def read (window : Bytes) : Reading := loop (MAX_MESSAGE_SIZE + 1) (.ofBuffer window) initial

/-- The loop takes a field that was read from bytes behind the first `size` ones. -/
def takesBeyond (size : ℕ) : ℕ → MessageParser → Header → Bool
  | 0, _, _ => false
  | fuel + 1, p, h =>
    match p.next with
    | (.foundTag, q) =>
      (size : ℤ) < q.extent || match h.field q with
        | .goesOn h => takesBeyond size fuel q h
        | _ => false
    | (_, _) => false

/-- A field of the header of the packet is read from bytes behind the packet. -/
def readsBeyond (own behind : Bytes) : Bool :=
  takesBeyond own.length (MAX_MESSAGE_SIZE + 1) (.ofBuffer (own ++ behind)) initial

variable {own behind : Bytes} {p q : MessageParser} {h : Header}

theorem loop_over {fuel : ℕ} (hp : p.data = own ++ behind)
    (hwi : takesBeyond own.length fuel p h = false) :
    loop fuel (p.over own) h = loop fuel p h := by
  induction fuel generalizing p h with
  | zero => rfl
  | succ fuel ih =>
    unfold loop
    unfold takesBeyond at hwi
    rcases hnext : p.next with ⟨found, q⟩
    rw [hnext] at hwi
    cases found with
    | foundTag =>
      simp only [Bool.or_eq_false_iff, decide_eq_false_iff_not, not_lt] at hwi
      obtain ⟨hextent, hrest⟩ := hwi
      rw [MessageParser.next_of_append hp hnext hextent]
      have hsame : h.field (q.over own) = h.field q := rfl
      simp only [hsame]
      cases hfield : h.field q with
      | closes => rfl
      | ends h => rfl
      | goesOn h =>
        rw [hfield] at hrest
        exact ih ((MessageParser.next_data hnext).trans hp) hrest
    | _ =>
      -- a field in the packet alone would be found with the bytes behind it as well
      rcases hown : (p.over own).next with ⟨_ | _ | _, r⟩
      · obtain ⟨r', hr⟩ := MessageParser.next_append hown behind
        have hover : (p.over own).over ((p.over own).data ++ behind) = p := by
          rw [show (p.over own).data ++ behind = p.data from hp.symm]
          rfl
        rw [hover, hnext] at hr
        cases hr
      · rfl
      · rfl

end Header

end FloweeHub.Network
