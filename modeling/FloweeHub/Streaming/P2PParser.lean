import FloweeHub.Lib.Runs
import FloweeHub.Primitives.Transaction

/-! `P2PParser` takes numbers and byte strings from a buffer. It stays inside as long as its tests
cover what is read: not so for a compact int at the end and for a size that wraps an address. -/

namespace FloweeHub.Streaming

open Lib LittleEndian

/-- A `ParsingException`; or a failing assertion, a read outside of the buffer, another exception. -/
inductive Stop
  | outOfRange
  | broken
deriving DecidableEq, Repr

/-- The buffer, its address and the place of `m_data` in it. -/
structure P2PParser where
  data : Bytes
  address : ℕ
  position : ℤ
deriving DecidableEq, Repr

/-- A value and the parser behind it. -/
abbrev Parsed (α : Type) := Except Stop (α × P2PParser)

namespace P2PParser

variable (p : P2PParser)

/-- The bytes that `m_data` moves over. -/
def consume (count : ℕ) : Parsed Bytes :=
  if 0 ≤ p.position ∧ p.position + count ≤ p.data.length then
    .ok ((p.data.drop p.position.toNat).take count, { p with position := p.position + count })
  else .error .broken

def checked (count : ℕ) : Parsed Bytes :=
  if p.data.length < p.position + count then .error .outOfRange else p.consume count

def number (count : ℕ) : Parsed ℕ := (p.checked count).map fun r => (decode r.1, r.2)

def readByte : Parsed ℕ := p.number 1

def readWord : Parsed ℕ := p.number 2

def readWordBE : Parsed ℕ := (p.checked 2).map fun r => (decode r.1.reverse, r.2)

def readInt : Parsed ℕ := p.number 4

def readLong : Parsed ℕ := p.number 8

/-- The first byte is read if the position is not behind the end. -/
def readCompactInt : Parsed ℕ :=
  if p.data.length < p.position then .error .outOfRange
  else
    (p.consume 1).bind fun r =>
      match decode r.1 with
      | 253 => r.2.readWord
      | 254 => r.2.readInt
      | 255 => r.2.readLong
      | answer => .ok (answer, r.2)

def readString : Parsed Bytes :=
  if p.data.length < p.position then .error .outOfRange
  else
    p.readCompactInt.bind fun r =>
      -- pointers are compared, so the sum is one of 64 bits
      if (r.2.address + r.2.data.length : ℤ) < (r.2.address + r.2.position + r.1) % 2 ^ 64 then
        .error .outOfRange
      else r.2.consume r.1

def readBytes (count : Int32) : Parsed Bytes :=
  if 0 < count.toInt then p.checked count.toInt.toNat else .error .broken

def readUnsignedBytes (count : Int32) : Parsed Bytes := p.readBytes count

def readUint256 : Parsed Uint256 := (p.checked 32).map fun r => (.ofBytes r.1, r.2)

def skip (bytes : Int32) : Except Stop P2PParser :=
  if p.data.length < p.position + bytes.toInt then .error .outOfRange
  else .ok { p with position := p.position + bytes.toInt }

/-- The calls of the parser. -/
inductive Call
  | readInt
  | readLong
  | readByte
  | readWordBE
  | readCompactInt
  | readString
  | readBytes (count : Int32)
  | readUnsignedBytes (count : Int32)
  | readUint256
  | skip (bytes : Int32)
deriving DecidableEq, Repr

/-- The parser behind a call, with the bytes for which it took memory. -/
def call : Call → Parsed Bytes
  | .readInt => p.readInt.map fun r => ([], r.2)
  | .readLong => p.readLong.map fun r => ([], r.2)
  | .readByte => p.readByte.map fun r => ([], r.2)
  | .readWordBE => p.readWordBE.map fun r => ([], r.2)
  | .readCompactInt => p.readCompactInt.map fun r => ([], r.2)
  | .readString => p.readString
  | .readBytes count => p.readBytes count
  | .readUnsignedBytes count => p.readUnsignedBytes count
  | .readUint256 => p.readUint256.map fun r => ([], r.2)
  | .skip bytes => (p.skip bytes).map fun q => ([], q)

/-- It throws, or the position has not gone back, is inside the buffer and as asked for. -/
def Kept {α : Type} (p : P2PParser) (good : α → ℤ → Prop) : Parsed α → Prop
  | .ok (value, q) =>
    q.data = p.data ∧ p.position ≤ q.position ∧ q.position ≤ p.data.length ∧ good value q.position
  | .error e => e = .outOfRange

/-- How long a compact int is. -/
def sizes : List ℤ := [1, 3, 5, 9]

/-- The bytes of a call, of which a string's come behind their number. -/
def Moves (bytes : Bytes) (count : ℤ) : Call → Prop
  | .readInt => count = 4
  | .readLong => count = 8
  | .readByte => count = 1
  | .readWordBE => count = 2
  | .readCompactInt => count ∈ sizes
  | .readString => count - bytes.length ∈ sizes
  | .readBytes n => count = n.toInt ∧ count = bytes.length
  | .readUnsignedBytes n => count = n.toInt ∧ count = bytes.length
  | .readUint256 => count = 32
  | .skip n => count = n.toInt

/-- The call throws, or moves over its bytes and returns the last of those. -/
def Proper (c : Call) : Prop :=
  Kept p (fun bytes place => Moves bytes (place - p.position) c ∧ bytes <:+ p.data.take place.toNat)
    (p.call c)

/-- A compact int has its first byte, a string that passes the test ends inside, no count is negative
and none of bytes zero. -/
def Guarded : Call → Prop
  | .readCompactInt => p.position < p.data.length
  | .readString => p.position < p.data.length ∧ ∀ size q, p.readCompactInt = .ok (size, q) →
    (q.address + q.position + size) % 2 ^ 64 ≤ q.address + q.data.length →
      q.position + size ≤ q.data.length
  | .readBytes count => 0 < count.toInt
  | .readUnsignedBytes count => 0 < count.toInt
  | .skip bytes => 0 ≤ bytes.toInt
  | _ => True

variable {p} {α β : Type} {q : P2PParser} {r : Parsed α}

theorem Kept.imp {good good' : α → ℤ → Prop} (h : Kept q good r)
    (hdata : q.data = p.data) (hpos : p.position ≤ q.position)
    (hgood : ∀ a place, good a place → good' a place) : Kept p good' r := by
  cases r with
  | error e => exact h
  | ok r =>
    rw [Kept, hdata] at h
    exact ⟨h.1, hpos.trans h.2.1, h.2.2.1, hgood _ _ h.2.2.2⟩

theorem Kept.map {good : β → ℤ → Prop} {f : α → β} (h : Kept p (fun a => good (f a)) r) :
    Kept p good (r.map fun r => (f r.1, r.2)) := by
  cases r with
  | error e => exact h
  | ok r => exact h

section Inside

variable (h0 : 0 ≤ p.position)

include h0

theorem kept_consume {count : ℕ} (h : p.position + count ≤ p.data.length) :
    Kept p (fun bytes place => place = p.position + count ∧ bytes.length = count ∧
      bytes <:+ p.data.take place.toNat)
      (p.consume count) := by
  rw [consume, if_pos ⟨h0, h⟩]
  refine ⟨rfl, Int.le_add_of_nonneg_right (Int.natCast_nonneg _), h, rfl, ?_, ?_⟩
  · rw [List.length_take, List.length_drop]
    omega
  · rw [Int.toNat_add h0 (Int.natCast_nonneg _), Int.toNat_natCast, List.take_drop]
    exact List.drop_suffix _ _

theorem kept_checked (count : ℕ) :
    Kept p (fun bytes place => place = p.position + count ∧ bytes.length = count ∧
      bytes <:+ p.data.take place.toNat)
      (p.checked count) := by
  unfold checked
  split_ifs with h
  · exact rfl
  · exact kept_consume h0 (not_lt.mp h)

theorem kept_fixed (count : ℕ) : Kept p (fun _ place => place - p.position = count) (p.checked count) :=
  (kept_checked h0 count).imp rfl le_rfl fun _ place h => by rw [h.1, add_sub_cancel_left]

theorem kept_number (count : ℕ) : Kept p (fun _ place => place - p.position = count) (p.number count) :=
  (kept_fixed h0 count).map

theorem kept_readCompactInt (hlt : p.position < p.data.length) :
    Kept p (fun _ place => place - p.position ∈ sizes) p.readCompactInt := by
  rw [readCompactInt, if_neg (by omega), consume, if_pos ⟨h0, by omega⟩]
  have hnum : ∀ count : ℕ, (count + 1 : ℤ) ∈ sizes →
      Kept p (fun _ place => place - p.position ∈ sizes)
        (number { p with position := p.position + 1 } count) := by
    intro count hcount
    have h1 : 0 ≤ p.position + 1 := Int.add_nonneg h0 (by decide)
    refine (kept_number h1 count).imp rfl (Int.le_add_one le_rfl) fun _ place h => ?_
    rwa [← h, sub_add_eq_sub_sub, sub_add_cancel] at hcount
  dsimp only [Except.bind]
  split
  · exact hnum 2 (by decide)
  · exact hnum 4 (by decide)
  · exact hnum 8 (by decide)
  · refine ⟨rfl, Int.le_add_one le_rfl, hlt, ?_⟩
    dsimp only
    rw [add_sub_cancel_left]
    decide

end Inside

theorem readCompactInt_at_end (hle : p.position ≤ p.data.length) (h : ¬ p.position < p.data.length) :
    p.readCompactInt = .error .broken := by
  rw [readCompactInt, if_neg (by omega), consume, if_neg (by omega)]
  rfl

theorem proper_readString_iff (h0 : 0 ≤ p.position) (hle : p.position ≤ p.data.length) :
    p.Proper .readString ↔ p.Guarded .readString := by
  rw [Proper, call, Guarded, readString, if_neg (by omega)]
  by_cases hlt : p.position < p.data.length
  · have hkept := kept_readCompactInt h0 hlt
    cases hsize : p.readCompactInt with
    | error e =>
      rw [hsize] at hkept
      exact iff_of_true hkept ⟨hlt, nofun⟩
    | ok r =>
      obtain ⟨size, q⟩ := r
      rw [hsize] at hkept
      obtain ⟨hdata, hlow, hend, hmoved⟩ := hkept
      dsimp only [Except.bind]
      split_ifs with htest
      · refine iff_of_true rfl ⟨hlt, fun size' q' h hpass => ?_⟩
        cases h
        exact absurd htest (not_lt.mpr hpass)
      · by_cases hin : q.position + size ≤ q.data.length
        · refine iff_of_true ?_ ⟨hlt, fun size' q' h _ => by cases h; exact hin⟩
          refine (kept_consume (h0.trans hlow) hin).imp hdata hlow fun bytes place hgood => ?_
          obtain ⟨hplace, hlen, hsuf⟩ := hgood
          refine ⟨?_, hdata ▸ hsuf⟩
          rw [Moves, hplace, hlen, add_sub_right_comm, add_sub_cancel_right]
          exact hmoved
        · rw [consume, if_neg fun h => hin h.2]
          exact iff_of_false (nofun) fun h => hin (h.2 size q rfl (not_lt.mp htest))
  · rw [readCompactInt_at_end hle hlt]
    exact iff_of_false (nofun) fun h => hlt h.1

/-- A parser inside its buffer. -/
def Inside (p : P2PParser) : Prop := 0 ≤ p.position ∧ p.position ≤ p.data.length

theorem proper_iff (hp : p.Inside) (c : Call) : p.Proper c ↔ p.Guarded c := by
  obtain ⟨h0, hle⟩ := hp
  have hvoid : ∀ {α : Type} {r : Parsed α} {c : Call}, Kept p (fun _ place =>
      Moves [] (place - p.position) c) r →
      Kept p (fun bytes place => Moves bytes (place - p.position) c ∧ bytes <:+ p.data.take place.toNat)
        (r.map fun r => ([], r.2)) :=
    fun h => Kept.map (f := fun _ => []) (h.imp rfl le_rfl fun _ _ hmoved => ⟨hmoved, List.nil_suffix⟩)
  have hbytes : ∀ count, p.Proper (.readBytes count) ↔ 0 < count.toInt := by
    intro count
    rw [Proper, call, readBytes]
    split_ifs with h
    · refine iff_of_true ((kept_checked h0 _).imp rfl le_rfl fun bytes place hgood => ?_) h
      obtain ⟨hplace, hlen, hsuf⟩ := hgood
      rw [Moves, hplace, hlen, add_sub_cancel_left]
      exact ⟨⟨Int.toNat_of_nonneg h.le, rfl⟩, hplace ▸ hsuf⟩
    · exact iff_of_false (nofun) h
  cases c with
  | readInt => exact iff_of_true (hvoid (kept_number h0 4)) trivial
  | readLong => exact iff_of_true (hvoid (kept_number h0 8)) trivial
  | readByte => exact iff_of_true (hvoid (kept_number h0 1)) trivial
  | readWordBE =>
    exact iff_of_true (hvoid (Kept.map (f := decode ∘ List.reverse) (kept_fixed h0 2))) trivial
  | readCompactInt =>
    by_cases hlt : p.position < p.data.length
    · exact iff_of_true (hvoid (kept_readCompactInt h0 hlt)) hlt
    · rw [Proper, call, readCompactInt_at_end hle hlt]
      exact iff_of_false (nofun) hlt
  | readString => exact proper_readString_iff h0 hle
  | readBytes count => exact hbytes count
  | readUnsignedBytes count => exact hbytes count
  | readUint256 => exact iff_of_true (hvoid (Kept.map (f := Uint256.ofBytes) (kept_fixed h0 32))) trivial
  | skip bytes =>
    rw [Proper, call, skip, Guarded]
    split_ifs with h
    · exact iff_of_true rfl (by omega)
    · have hlow : p.position ≤ p.position + bytes.toInt ↔ 0 ≤ bytes.toInt := by omega
      exact ⟨fun hkept => hlow.mp hkept.2.1,
        fun h' => ⟨rfl, hlow.mpr h', not_lt.mp h, add_sub_cancel_left _ _, List.nil_suffix⟩⟩

theorem Proper.inside {c : Call} {bytes : Bytes} (hp : p.Inside) (h : p.Proper c)
    (hc : p.call c = .ok (bytes, q)) : q.Inside := by
  rw [Proper, hc] at h
  obtain ⟨hdata, hlow, hend, -⟩ := h
  exact ⟨hp.1.trans hlow, hdata ▸ hend⟩

/-- There is no parser left behind an exception. -/
def step (s : Option P2PParser) (c : Call) : Option P2PParser := s.bind fun p =>
    (p.call c).toOption.map Prod.snd

/-- All calls on a buffer keep inside it or throw exactly if each of them is guarded. -/
theorem proper_along_iff (data : Bytes) (address : ℕ) (calls : List Call) :
    Runs.Along step (fun s c => ∀ p ∈ s, p.Proper c) (some ⟨data, address, 0⟩) calls ↔
      Runs.Along step (fun s c => ∀ p ∈ s, p.Guarded c) (some ⟨data, address, 0⟩) calls := by
  refine Runs.along_congr (fun s => ∀ p ∈ s, p.Inside) (fun s c hs _ => ⟨?_, fun h q hq => ?_⟩) ?_
    (Runs.along_true _ _)
  · exact forall₂_congr fun p hp => proper_iff (hs p hp) c
  · obtain ⟨p, hp, hq⟩ := Option.bind_eq_some_iff.mp hq
    obtain ⟨⟨bytes, q⟩, hr, rfl⟩ := Option.map_eq_some_iff.mp hq
    refine Proper.inside (hs p hp) (h p hp) (?_ : p.call c = .ok (bytes, q))
    cases hc : p.call c with
    | error e => simp [hc, Except.toOption] at hr
    | ok r => simpa [hc, Except.toOption] using hr
  · rintro p ⟨⟩
    exact ⟨le_rfl, Int.natCast_nonneg _⟩

/-- A compact int at the end, a push of no bytes and a string of almost `2 ^ 64` bytes. -/
theorem not_proper_along :
    ¬ Runs.Along step (fun s c => ∀ p ∈ s, p.Proper c) (some ⟨[], 4096, 0⟩) [.readCompactInt] ∧
    ¬ Runs.Along step (fun s c => ∀ p ∈ s, p.Proper c) (some ⟨[0], 4096, 0⟩) [.readCompactInt,
      .readUnsignedBytes 0] ∧
    ¬ Runs.Along step (fun s c => ∀ p ∈ s, p.Proper c) (some ⟨List.replicate 9 255, 4096, 0⟩)
      [.readString] := by
  refine ⟨fun h => ?_, fun h => ?_, fun h => ?_⟩
  · exact absurd (show Stop.broken = .outOfRange from h.1 _ rfl) (by decide)
  · exact absurd (show Stop.broken = .outOfRange from h.2.1 _ rfl) (by decide)
  · exact absurd (show Stop.broken = .outOfRange from h.1 _ rfl) (by decide)

end P2PParser

end FloweeHub.Streaming
