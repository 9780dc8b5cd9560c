import FloweeHub.Primitives.Transaction

/-! Decoding cash addresses. There is no result when memory outside a vector is touched. Proved is
when that happens. Encoding is left out. -/

namespace FloweeHub.CashAddress

open List

def CHARSET_REV : List ℤ := replicate 48 (-1) ++
  [15, -1, 10, 17, 21, 20, 26, 30, 7, 5, -1, -1, -1, -1, -1, -1, -1, 29, -1, 24, 13, 25, 9, 8, 23,
    -1, 18, 22, 31, 27, 19, -1, 1, 0, 3, 16, 11, 28, 12, 14, 6, 4, 2, -1, -1, -1, -1, -1, -1, 29,
    -1, 24, 13, 25, 9, 8, 23, -1, 18, 22, 31, 27, 19, -1, 1, 0, 3, 16, 11, 28, 12, 14, 6, 4, 2, -1,
    -1, -1, -1, -1]

def PolyMod (v : Bytes) : UInt64 :=
  v.foldl (fun (c : UInt64) d =>
    let c0 := (c >>> 35).toUInt8
    let c := ((c &&& 0x07ffffffff) <<< 5) ^^^ d.toUInt64
    let c := if c0 &&& 0x01 ≠ 0 then c ^^^ 0x98f2bc8e61 else c
    let c := if c0 &&& 0x02 ≠ 0 then c ^^^ 0x79b76d99e2 else c
    let c := if c0 &&& 0x04 ≠ 0 then c ^^^ 0xf33e5fb3c4 else c
    let c := if c0 &&& 0x08 ≠ 0 then c ^^^ 0xae2eabe2a8 else c
    if c0 &&& 0x10 ≠ 0 then c ^^^ 0x1e4f43e470 else c) 1 ^^^ 1

def LowerCase (c : UInt8) : UInt8 := c ||| 0x20

def ExpandPrefix (text : Bytes) : Bytes := text.map (· &&& 0x1f) ++ [0]

def VerifyChecksum (text payload : Bytes) : Bool := PolyMod (ExpandPrefix text ++ payload) == 0

/-- What the loop over the characters finds. -/
structure Scan where
  lower : Bool := false
  upper : Bool := false
  hasNumber : Bool := false
  prefixSize : ℕ := 0

/-- The sanity checks, from character `i` on. -/
def scan (i : ℕ) (s : Scan) : Bytes → Option Scan
  | [] => some s
  | c :: str =>
    if 'a'.toUInt8 ≤ c ∧ c ≤ 'z'.toUInt8 then scan (i + 1) { s with lower := true } str
    else if 'A'.toUInt8 ≤ c ∧ c ≤ 'Z'.toUInt8 then scan (i + 1) { s with upper := true } str
    else if '0'.toUInt8 ≤ c ∧ c ≤ '9'.toUInt8 then scan (i + 1) { s with hasNumber := true } str
    else if c = ':'.toUInt8 then
      if s.hasNumber ∨ i = 0 ∨ s.prefixSize ≠ 0 then none
      else scan (i + 1) { s with prefixSize := i } str
    else none

def valueOf (c : UInt8) : Option UInt8 :=
  match CHARSET_REV[c.toNat]? with
  | none => none
  | some v => if v = -1 then none else some (UInt8.ofNat v.toNat)

/-- The prefix and the values that the checksum is verified over. -/
def split (str default_prefix : Bytes) : Option (Bytes × Bytes) :=
  match scan 0 {} str with
  | none => none
  | some s =>
    if s.upper && s.lower then none
    else if s.prefixSize = 0 then (str.mapM valueOf).map fun values => ( default_prefix, values)
    else ((str.drop (s.prefixSize + 1)).mapM valueOf).map fun values =>
      ((str.take s.prefixSize).map LowerCase, values)

def decode (str default_prefix : Bytes) : Option (Bytes × Bytes) :=
  match split str default_prefix with
  | none => some ([], [])
  | some (text, values) =>
    if !VerifyChecksum text values then some ([], [])
    -- `values.end() - 8`
    else if values.length < 8 then none
    else some (text, values.take (values.length - 8))

def drain (tobits acc bits : ℕ) (out : Bytes) : Bytes × ℕ :=
  if 0 < tobits ∧ tobits ≤ bits then
    drain tobits acc (bits - tobits)
      (out ++ [UInt8.ofNat ((acc >>> (bits - tobits)) &&& (2 ^ tobits - 1))])
  else (out, bits)
termination_by bits

def convertStep (frombits tobits : ℕ) (r : (Bytes × ℕ) × ℕ) (v : UInt8) : (Bytes × ℕ) × ℕ :=
  let acc := ((r.2 <<< frombits) ||| v.toNat) &&& (2 ^ (frombits + tobits - 1) - 1)
  (drain tobits acc (r.1.2 + frombits) r.1.1, acc)

/-- The bits that do not fill a value are left out: `pad` is false. -/
def ConvertBits (frombits tobits : ℕ) (input : Bytes) : Bytes :=
  (input.foldl (convertStep frombits tobits) (([], 0), 0)).1.1

/-- The type and hash of an address. -/
structure Content where
  type : UInt8 := 0
  hash : Bytes := []

def decodeCashAddrContent (addr expectedPrefix : Bytes) : Option Content :=
  (decode addr expectedPrefix).bind fun r =>
    if r.1 ≠ expectedPrefix then some {}
    else match r.2.getLast? with
    | none => some {}
    | some last =>
      let extrabits := r.2.length * 5 % 8
      if 5 ≤ extrabits ∨ last.toNat &&& (2 ^ extrabits - 1) ≠ 0 then some {}
      else match ConvertBits 5 8 r.2 with
      -- `data[0]`
      | [] => none
      | version :: data =>
        let hash_size := (20 + 4 * (version &&& 0x03).toNat) * (if version &&& 0x04 ≠ 0 then 2 else 1)
        if version &&& 0x80 ≠ 0 ∨ data.length ≠ hash_size then some {}
        else some ⟨(version >>> 3) &&& 0x1f, data⟩

section Lengths

variable {tobits : ℕ} (htobits : 0 < tobits)
include htobits

theorem drain_length (acc bits : ℕ) (out : Bytes) :
    (drain tobits acc bits out).1.length * tobits + (drain tobits acc bits out).2 =
      out.length * tobits + bits ∧ (drain tobits acc bits out).2 < tobits := by
  fun_induction drain with
  | case1 bits out hle ih =>
    rw [length_append, length_singleton, Nat.succ_mul] at ih
    omega
  | case2 bits out hlt => exact ⟨rfl, by omega⟩

theorem foldl_convertStep_length (f : ℕ) (input : Bytes) (r : (Bytes × ℕ) × ℕ) (hr : r.1.2 < tobits) :
    (input.foldl (convertStep f tobits) r).1.1.length * tobits +
        (input.foldl (convertStep f tobits) r).1.2 = r.1.1.length * tobits + r.1.2 + input.length * f ∧
      (input.foldl (convertStep f tobits) r).1.2 < tobits := by
  induction input generalizing r with
  | nil => exact ⟨by simp, hr⟩
  | cons v input ih =>
    have hstep := drain_length htobits (convertStep f tobits r v).2 (r.1.2 + f) r.1.1
    obtain ⟨hlen, hlt⟩ := ih (convertStep f tobits r v) hstep.2
    refine ⟨hlen.trans ?_, hlt⟩
    rw [length_cons, Nat.succ_mul]
    exact (congrArg (· + input.length * f) hstep.1).trans (by omega)

theorem ConvertBits_length (f : ℕ) (input : Bytes) :
    (ConvertBits f tobits input).length = input.length * f / tobits := by
  obtain ⟨hlen, hlt⟩ := foldl_convertStep_length htobits f input (([], 0), 0) htobits
  rw [length_nil, Nat.zero_mul, Nat.zero_add, Nat.zero_add] at hlen
  rw [← hlen, Nat.mul_comm, Nat.mul_add_div htobits, Nat.div_eq_of_lt hlt]
  rfl

end Lengths

/-- The checksum is valid, over fewer values than it has itself. -/
def ShortOfChecksum (str default_prefix : Bytes) : Prop :=
  ∃ r, split str default_prefix = some r ∧ VerifyChecksum r.1 r.2 ∧ r.2.length < 8

/-- The checksum is valid, and there are enough values for it. -/
def Accepted (str default_prefix : Bytes) : Prop :=
  ∃ r, split str default_prefix = some r ∧ VerifyChecksum r.1 r.2 ∧ 8 ≤ r.2.length

variable {str dp : Bytes}

theorem decode_eq_none_iff : decode str dp = none ↔ ShortOfChecksum str dp := by
  unfold decode ShortOfChecksum
  cases split str dp with
  | none => simp
  | some r => by_cases hsum : VerifyChecksum r.1 r.2 <;> simp [hsum]

theorem decode_some (h : decode str dp = some r) : r = ([], []) ∨ Accepted str dp := by
  unfold decode at h
  split at h
  · exact .inl (Option.some.inj h).symm
  next text values hsplit =>
    split_ifs at h with hsum hshort
    · exact .inl (Option.some.inj h).symm
    · exact .inr ⟨_, hsplit, by simpa using hsum, not_lt.mp hshort⟩

/-- Two values or more make a byte, and a single one is more padding than allowed. -/
theorem content_of_decode (h : decode str dp = some r) :
    ∃ c, decodeCashAddrContent str dp = some c ∧ (c = {} ∨ r ≠ ([], [])) := by
  unfold decodeCashAddrContent
  rw [h, Option.bind_some]
  split_ifs with hprefix
  · exact ⟨_, rfl, .inl rfl⟩
  split
  · exact ⟨_, rfl, .inl rfl⟩
  next last hlast =>
    have hne : r.2 ≠ [] := by
      intro heq
      rw [heq] at hlast
      cases hlast
    dsimp only
    split_ifs with hpad
    · exact ⟨_, rfl, .inl rfl⟩
    split
    next hdata =>
      have hlen := ConvertBits_length (show 0 < 8 by decide) 5 r.2
      have hpos := length_pos_of_ne_nil hne
      rw [hdata, length_nil] at hlen
      omega
    next version data hdata =>
      have hr : r ≠ ([], []) := fun heq => hne (by rw [heq])
      split_ifs
      all_goals exact ⟨_, rfl, by simp [hr]⟩

/-- Decoding stays inside its vectors unless the data is short of a checksum. -/
theorem decode_inside_iff (str dp : Bytes) :
    (∃ r, decode str dp = some r ∧ (r = ([], []) ∨ Accepted str dp)) ∧
      (∃ c, decodeCashAddrContent str dp = some c ∧ (c = {} ∨ Accepted str dp)) ↔
    ¬ShortOfChecksum str dp := by
  constructor
  · rintro ⟨⟨r, hr, -⟩, -⟩ hshort
    rw [decode_eq_none_iff.mpr hshort] at hr
    cases hr
  · intro hlong
    obtain ⟨r, hr⟩ := Option.ne_none_iff_exists'.mp (mt decode_eq_none_iff.mp hlong)
    obtain ⟨c, hc, hok⟩ := content_of_decode hr
    exact ⟨⟨r, hr, decode_some hr⟩, c, hc, hok.imp_right (decode_some hr).resolve_left⟩

/-- The prefix of one letter is chosen for the checksum: seven symbols do. -/
theorem decode_outside :
    decode (['c', ':', 'q', 'v', 'd', 'y', '2', 'z', '3'].map Char.toUInt8) [] = none := by
  decide +kernel

end FloweeHub.CashAddress
