import FloweeHub.Chain.ArithUint256

/-! `CScriptNum`, and the two opcodes that convert between numbers and byte strings. `number` reads
a string of any length; it is in smallest format exactly when its length is the one its number
needs. -/

namespace FloweeHub.Script

open Lib.LittleEndian ArithUint256 List Nat Or

abbrev Valtype := List UInt8

/-- What the modelled opcodes return; an exception ends in `UNKNOWN_ERROR`. -/
inductive ScriptError
  | UNKNOWN_ERROR
  | INVALID_STACK_OPERATION
  | INVALID_NUMBER_RANGE
  | PUSH_SIZE
  | IMPOSSIBLE_ENCODING
  | OP_COUNT
  | PUBKEY_COUNT
  | SIG_COUNT
  | SIG_NULLFAIL
  | SIG_HASHTYPE
  | PUBKEYTYPE
  | INVALID_BITFIELD_SIZE
  | INVALID_BIT_RANGE
  | INVALID_BIT_COUNT
  deriving DecidableEq, Repr

def MAX_SCRIPT_ELEMENT_SIZE : ℕ := 520

def nDefaultMaxNumSize : ℕ := 4

variable (vch : Valtype)

def isSmallestFormat (nMaxNumSize : ℕ := nDefaultMaxNumSize) : Bool :=
  decide (vch.length ≤ nMaxNumSize) && match vch.reverse with
    | [] => true
    | [back] => back &&& 0x7f != 0
    | back :: next :: _ => back &&& 0x7f != 0 || next &&& 0x80 != 0

/-- The loop of `createSmallestFormat`, over the bytes before `last` with the highest first. -/
def trim (last : UInt8) : Valtype → Valtype
  | [] => []
  | b :: bs =>
    if b != 0 then
      if b &&& 0x80 != 0 then bs.reverse ++ [b, last] else bs.reverse ++ [b ||| last]
    else trim last bs

def createSmallestFormat (data : Valtype) : Valtype :=
  match data.reverse with
  | [] => data
  | [last] => if last &&& 0x7f != 0 then data else []
  | last :: next :: rest =>
    if last &&& 0x7f != 0 then data
    else if next &&& 0x80 != 0 then data
    else trim last (next :: rest)

def serialize (value : ℤ) : Valtype :=
  -- the bytes the loop pushes until `absvalue` is zero
  let result := (digits 256 value.natAbs).map UInt8.ofNat
  match result.getLast? with
  | none => []
  | some back =>
    if back &&& 0x80 != 0 then result ++ [if value < 0 then 0x80 else 0]
    else if value < 0 then result.dropLast ++ [back ||| 0x80]
    else result

/-- The loop of `set_vch`: each byte is or-ed into the word at its place. -/
def orBytes {w : ℕ} : ℕ → BitVec w → Valtype → BitVec w
  | _, result, [] => result
  | i, result, b :: bs => orBytes (i + 1) (result ||| BitVec.ofNat w b.toNat <<< (8 * i)) bs

def set_vch : ℤ :=
  match vch.getLast? with
  | none => 0
  | some back =>
    let result := orBytes 0 0#64 vch
    if back &&& 0x80 != 0 then (-(result &&& ~~~(0x80#64 <<< (8 * (vch.length - 1))))).toInt
    else result.toInt

def CScriptNum (fRequireMinimal : Bool) (nMaxNumSize : ℕ := nDefaultMaxNumSize) : Except ScriptError ℤ :=
  if vch.length > nMaxNumSize then .error .UNKNOWN_ERROR
  else if fRequireMinimal && !isSmallestFormat vch nMaxNumSize then .error .UNKNOWN_ERROR
  else .ok (set_vch vch)

def getint (m_value : ℤ) : ℤ := max (-2 ^ 31) (min m_value (2 ^ 31 - 1))

def OP_BIN2NUM : List Valtype → Except ScriptError (List Valtype)
  | [] => .error .INVALID_STACK_OPERATION
  | n :: stack =>
    if !isSmallestFormat (createSmallestFormat n) then .error .INVALID_NUMBER_RANGE
    else .ok (createSmallestFormat n :: stack)

/-- The end of `OP_NUM2BIN`: zeros up to the wanted size, and the sign moved to the last byte. -/
def padTo (size : ℕ) (rawnum : Valtype) : Valtype :=
  match rawnum.getLast? with
  | none => replicate (size - 1) 0 ++ [0]
  | some back =>
    rawnum.dropLast ++ [back &&& 0x7f] ++ replicate (size - 1 - rawnum.length) 0 ++ [back &&& 0x80]

def OP_NUM2BIN (fRequireMinimal : Bool) : List Valtype → Except ScriptError (List Valtype)
  | top :: rawnum :: stack => do
    -- a negative `int` is a huge `uint64_t`
    let size := ((getint (← CScriptNum top fRequireMinimal)) % 2 ^ 64).toNat
    if size > MAX_SCRIPT_ELEMENT_SIZE then throw .PUSH_SIZE
    let rawnum := createSmallestFormat rawnum
    if rawnum.length > size then throw .IMPOSSIBLE_ENCODING
    if rawnum.length = size then return rawnum :: stack
    return padTo size rawnum :: stack
  | _ => .error .INVALID_STACK_OPERATION

theorem forall_byte {p : UInt8 → Prop} (h : ∀ n : Fin 256, p (UInt8.ofNat n)) (b : UInt8) : p b := by
  have hb := h ⟨b.toNat, b.toNat_lt⟩
  rwa [UInt8.ofNat_toNat] at hb

theorem and_sign : ∀ b : UInt8, (b &&& 0x80 != 0) = decide (128 ≤ b.toNat) :=
  forall_byte (by decide +kernel)

theorem and_rest : ∀ b : UInt8, (b &&& 0x7f != 0) = decide (b.toNat % 128 ≠ 0) :=
  forall_byte (by decide +kernel)

theorem toNat_and_rest : ∀ b : UInt8, (b &&& 0x7f).toNat = b.toNat % 128 :=
  forall_byte (by decide +kernel)

theorem toNat_and_sign : ∀ b : UInt8, (b &&& 0x80).toNat = if 128 ≤ b.toNat then 128 else 0 :=
  forall_byte (by decide +kernel)

theorem toNat_or_sign : ∀ b : UInt8, b.toNat < 128 → (b ||| 0x80).toNat = b.toNat + 128 :=
  forall_byte (by decide +kernel)

theorem eq_of_rest_eq_zero : ∀ b : UInt8, b.toNat % 128 = 0 → b = 0 ∨ b = 0x80 :=
  forall_byte (by decide +kernel)

/-! ### The number of a string -/

/-- The number a string of any length stands for. -/
def number : ℤ :=
  match vch.getLast? with
  | none => 0
  | some back =>
    let absvalue := decode vch.dropLast + 256 ^ (vch.length - 1) * (back.toNat % 128)
    if 128 ≤ back.toNat then -(absvalue : ℤ) else absvalue

@[simp] theorem number_nil : number [] = 0 := rfl

variable (front : Valtype)

theorem number_concat (b : UInt8) : number (front ++ [b]) =
    if 128 ≤ b.toNat then -((decode front + 256 ^ front.length * (b.toNat % 128) : ℕ) : ℤ)
    else ((decode front + 256 ^ front.length * (b.toNat % 128) : ℕ) : ℤ) := by
  simp [number]

theorem natAbs_number_concat (b : UInt8) :
    (number (front ++ [b])).natAbs = decode front + 256 ^ front.length * (b.toNat % 128) := by
  rw [number_concat]
  split_ifs
  · rw [Int.natAbs_neg, Int.natAbs_natCast]
  · rw [Int.natAbs_natCast]

theorem decode_append (as bs : Valtype) :
    decode (as ++ bs) = decode as + 256 ^ as.length * decode bs := by
  induction as with
  | nil => simp [decode]
  | cons a as ih =>
    rw [cons_append, decode, ih, decode, length_cons, pow_succ]
    ring

theorem decode_replicate_zero (n : ℕ) : decode (replicate n 0) = 0 := by
  induction n with
  | zero => rfl
  | succ n ih => simp [replicate_succ, decode, ih]

/-- The string is no longer than its number needs. -/
def Canonical : Prop := vch.length = byteSize (number vch).natAbs

theorem canonical_nil : Canonical [] := by simp [Canonical, byteSize]

theorem two_mul_number_lt (b : UInt8) :
    2 * (number (front ++ [b])).natAbs < 256 ^ (front.length + 1) := by
  have hfr := decode_lt front
  have hb : b.toNat % 128 ≤ 127 := by omega
  have hmul := mul_le_mul_left (256 ^ front.length) hb
  rw [natAbs_number_concat, pow_succ]
  omega

theorem canonical_concat (b : UInt8) :
    Canonical (front ++ [b]) ↔ 256 ^ front.length ≤ 2 * (number (front ++ [b])).natAbs := by
  rw [Canonical, length_append, length_singleton]
  constructor
  · intro h
    have hle := pow_le_two_mul (show 0 < byteSize (number (front ++ [b])).natAbs by omega)
    rwa [← h, Nat.add_sub_cancel] at hle
  · intro h
    exact (byteSize_eq (two_mul_number_lt front b) fun _ => h).symm

/-- The last byte carries more than the sign, or the one before it has its highest bit taken. -/
theorem canonical_concat_iff (b : UInt8) : Canonical (front ++ [b]) ↔
    b.toNat % 128 ≠ 0 ∨ ∃ next ∈ front.getLast?, 128 ≤ next.toNat := by
  rw [canonical_concat, natAbs_number_concat]
  obtain hb | hb := eq_or_ne (b.toNat % 128) 0
  · rw [hb, mul_zero, add_zero]
    obtain rfl | ⟨rest, next, rfl⟩ := front.eq_nil_or_concat
    · simp [decode]
    · have hrest := decode_lt rest
      simp only [concat_eq_append, getLast?_concat, Option.mem_some_iff, exists_eq_left', decode_append,
        decode, length_append, length_singleton, pow_succ, mul_zero, add_zero, ne_eq,
        not_true_eq_false, false_or]
      constructor
      · intro h
        by_contra hlt
        have := mul_le_mul_left (256 ^ rest.length) (show next.toNat ≤ 127 by omega)
        omega
      · intro h
        have := mul_le_mul_left (256 ^ rest.length) h
        omega
  · have := mul_le_mul_left (256 ^ front.length) (one_le_iff_ne_zero.mpr hb)
    omega

/-- There is one string in smallest format for each number. -/
theorem Canonical.unique {x y : Valtype} (hx : Canonical x) (hy : Canonical y)
    (h : number x = number y) : x = y := by
  have hlen : x.length = y.length := by rw [hx, hy, h]
  obtain rfl | ⟨as, a, rfl⟩ := x.eq_nil_or_concat
  · exact (eq_nil_of_length_eq_zero hlen.symm).symm
  · obtain rfl | ⟨bs, b, rfl⟩ := y.eq_nil_or_concat
    · simp at hlen
    · simp only [concat_eq_append, length_append, length_singleton, add_right_cancel_iff] at *
      have hne : 0 < (number (bs ++ [b])).natAbs := by
        have hle := (canonical_concat bs b).mp hy
        have hpos := pow_pos (n := bs.length) (show 0 < 256 by decide)
        omega
      have habs := congrArg Int.natAbs h
      rw [natAbs_number_concat, natAbs_number_concat, hlen] at habs
      have has := decode_lt as
      have hbs := decode_lt bs
      rw [hlen] at has
      have hlow : decode as = decode bs := by
        have hmod := congrArg (· % 256 ^ bs.length) habs
        simpa only [add_mul_mod_self_left, mod_eq_of_lt has, mod_eq_of_lt hbs] using hmod
      have hhigh : a.toNat % 128 = b.toNat % 128 :=
        Nat.eq_of_mul_eq_mul_left (Nat.pow_pos (n := bs.length) (show 0 < 256 by decide)) (by omega)
      have hsign : 128 ≤ a.toNat ↔ 128 ≤ b.toNat := by
        rw [natAbs_number_concat] at hne
        rw [number_concat, number_concat, hlen, hlow, hhigh] at h
        split_ifs at h with ha hb hb <;> omega
      have hlast : a = b := UInt8.toNat_inj.mp (by have := a.toNat_lt; have := b.toNat_lt; omega)
      rw [decode_injective hlen hlow, hlast]

theorem isSmallestFormat_iff (nMaxNumSize : ℕ) :
    isSmallestFormat vch nMaxNumSize = true ↔ vch.length ≤ nMaxNumSize ∧ Canonical vch := by
  rw [isSmallestFormat, Bool.and_eq_true, decide_eq_true_eq]
  apply and_congr_right
  intro _
  obtain rfl | ⟨front, b, rfl⟩ := vch.eq_nil_or_concat
  · simp [canonical_nil]
  · rw [concat_eq_append, canonical_concat_iff]
    obtain rfl | ⟨rest, next, rfl⟩ := front.eq_nil_or_concat
    · simp [and_rest]
    · simp [and_rest, and_sign]

/-- Zeros at the end are taken off. -/
theorem trim_spec {last : UInt8} (hlast : last.toNat % 128 = 0) (rest : Valtype) :
    number (trim last rest) = number (rest.reverse ++ [last]) ∧ Canonical (trim last rest) := by
  induction rest with
  | nil => simp [trim, number, decode, hlast, canonical_nil]
  | cons b bs ih =>
    rw [trim, reverse_cons]
    split_ifs with hb hsign
    · rw [append_assoc]
      rw [and_sign, decide_eq_true_eq] at hsign
      rw [show bs.reverse ++ [b, last] = bs.reverse ++ [b] ++ [last] by simp, canonical_concat_iff]
      simp [hsign]
    · -- the sign of `last` goes to the free highest bit of `b`
      rw [and_sign, decide_eq_true_eq, not_le] at hsign
      have hne : b.toNat ≠ 0 := by
        rw [bne_iff_ne] at hb
        exact fun h => hb (UInt8.toNat_inj.mp h)
      have hor : (b ||| last).toNat = b.toNat + if 128 ≤ last.toNat then 128 else 0 := by
        obtain rfl | rfl := eq_of_rest_eq_zero last hlast
        · simp
        · simpa using toNat_or_sign b hsign
      constructor
      · rw [number_concat, number_concat, hor, hlast, decode_append, decode, decode]
        split_ifs with h1 h2 h2 <;> simp only [mul_zero, add_zero] <;> first | omega | congr 4; omega
      · rw [canonical_concat_iff, hor]
        split_ifs <;> omega
    · simp only [bne_iff_ne, ne_eq, not_not] at hb
      refine ⟨ih.1.trans ?_, ih.2⟩
      rw [number_concat, number_concat, hlast, decode_append, hb]
      simp [decode]

/-- The number stays, in the one smallest form. -/
theorem createSmallestFormat_spec (data : Valtype) :
    number (createSmallestFormat data) = number data ∧ Canonical (createSmallestFormat data) := by
  obtain rfl | ⟨front, last, rfl⟩ := data.eq_nil_or_concat
  · exact ⟨rfl, canonical_nil⟩
  · rw [concat_eq_append]
    obtain rfl | ⟨rest, next, rfl⟩ := front.eq_nil_or_concat
    · simp only [createSmallestFormat, nil_append, reverse_singleton, and_rest, decide_eq_true_eq]
      split_ifs with hlast
      · exact ⟨rfl, (canonical_concat_iff [] last).mpr (inl hlast)⟩
      · exact ⟨by simp [number, decode, not_not.mp hlast], canonical_nil⟩
    · simp only [createSmallestFormat, concat_eq_append, reverse_append, reverse_singleton,
        cons_append, nil_append, and_rest, and_sign, decide_eq_true_eq]
      split_ifs with hlast hnext
      · exact ⟨rfl, (canonical_concat_iff _ last).mpr (inl hlast)⟩
      · exact ⟨rfl, (canonical_concat_iff _ last).mpr (inr (by simpa using hnext))⟩
      · simpa using trim_spec (not_not.mp hlast) (next :: rest.reverse)

/-! ### Writing and reading 64-bit values -/

theorem decode_digits (n : ℕ) : decode ((digits 256 n).map UInt8.ofNat) = n := by
  induction n using Nat.strong_induction_on with
  | _ n ih =>
    obtain rfl | hpos := Nat.eq_zero_or_pos n
    · rfl
    · rw [digits_def' (by decide) hpos, map_cons, decode, ih _ (div_lt_self hpos (by decide)),
        UInt8.toNat_ofNat']
      omega

/-- The bytes of a number other than zero end with one that is not zero. -/
theorem digits_concat {n : ℕ} (hn : n ≠ 0) : ∃ front b, (digits 256 n).map UInt8.ofNat = front ++ [b] ∧
    b.toNat ≠ 0 ∧ decode front + 256 ^ front.length * b.toNat = n := by
  have hdec := decode_digits n
  obtain h | ⟨front, d, h⟩ := (digits 256 n).eq_nil_or_concat
  · exact absurd h (digits_ne_nil_iff_ne_zero.mpr hn)
  · rw [concat_eq_append] at h
    have hd : d ≠ 0 := by
      have hlast := getLast_digit_ne_zero 256 hn
      simpa [h] using hlast
    have hlt : d < 256 := digits_lt_base (by decide) (show d ∈ digits 256 n by simp [h])
    have hbyte : (UInt8.ofNat d).toNat = d := by
      exact mod_eq_of_lt hlt
    rw [h, map_append, map_singleton, decode_append, decode, decode, mul_zero, add_zero] at hdec
    exact ⟨front.map UInt8.ofNat, UInt8.ofNat d,
      by rw [h, map_append, map_singleton], by rwa [hbyte], hdec⟩

/-- A number is written in its smallest form. -/
theorem serialize_spec (value : ℤ) : number (serialize value) = value ∧ Canonical (serialize value) := by
  obtain rfl | hne := eq_or_ne value 0
  · simp [serialize, canonical_nil]
  · obtain ⟨front, b, hbs, hb, hval⟩ := digits_concat (Int.natAbs_ne_zero.mpr hne)
    simp only [serialize, hbs, getLast?_concat, dropLast_concat, and_sign, decide_eq_true_eq]
    split_ifs with hsign hneg hneg
    · rw [number_concat, canonical_concat_iff, decode_append, decode, decode, mul_zero, add_zero, hval,
        if_pos (by decide), show (0x80 : UInt8).toNat % 128 = 0 by rfl]
      exact ⟨by omega, inr (by simpa using hsign)⟩
    · rw [number_concat, canonical_concat_iff, decode_append, decode, decode, mul_zero, add_zero, hval,
        if_neg (by decide), show (0 : UInt8).toNat % 128 = 0 by rfl]
      exact ⟨by omega, inr (by simpa using hsign)⟩
    · have hor := toNat_or_sign b (by omega)
      rw [number_concat, canonical_concat_iff, hor, if_pos (by omega), show (b.toNat + 128) % 128 =
        b.toNat by omega]
      omega
    · rw [number_concat, canonical_concat_iff, if_neg hsign, mod_eq_of_lt (by omega)]
      omega

theorem orBytes_eq (w i r : ℕ) (bs : Valtype) (hr : r < 2 ^ (8 * i)) :
    orBytes i (BitVec.ofNat w r) bs = BitVec.ofNat w (r + 2 ^ (8 * i) * decode bs) := by
  induction bs generalizing i r with
  | nil => simp [orBytes, decode]
  | cons b bs ih =>
    have hb := b.toNat_lt
    have hor : BitVec.ofNat w r ||| BitVec.ofNat w b.toNat <<< (8 * i) =
        BitVec.ofNat w (r + 2 ^ (8 * i) * b.toNat) := by
      rw [add_comm, two_pow_add_eq_or_of_lt hr, BitVec.ofNat_or, BitVec.or_comm]
      congr 1
      apply BitVec.eq_of_toNat_eq
      simp [shiftLeft_eq, mul_comm]
    rw [orBytes, hor, ih, decode]
    · congr 1
      rw [show 8 * (i + 1) = 8 * i + 8 by ring, pow_add]
      ring
    · rw [show 8 * (i + 1) = 8 * i + 8 by ring, pow_add]
      have := mul_le_mul_left (2 ^ (8 * i)) (show b.toNat ≤ 255 by omega)
      omega

theorem clear_sign {low k : ℕ} (h : low < 2 ^ (k + 7)) :
    BitVec.ofNat 64 (2 ^ (k + 7) + low) &&& ~~~(0x80#64 <<< k) = BitVec.ofNat 64 low := by
  apply BitVec.eq_of_getLsbD_eq
  intro i hi
  have hbit : (0x80#64 <<< k).getLsbD i = decide (i = k + 7) := by
    rw [show 0x80#64 = BitVec.twoPow 64 7 by decide, BitVec.getLsbD_shiftLeft, BitVec.getLsbD_twoPow]
    grind
  have hadd : 2 ^ (k + 7) + low = 2 ^ (k + 7) ||| low := by simpa using two_pow_add_eq_or_of_lt h 1
  have hlow := testBit_lt_two_pow h
  rw [BitVec.getLsbD_and, BitVec.getLsbD_not, hbit, BitVec.getLsbD_ofNat, BitVec.getLsbD_ofNat, hadd,
    testBit_or, testBit_two_pow]
  grind

theorem toInt_ofNat_of_lt {n : ℕ} (h : n < 2 ^ 63) : (BitVec.ofNat 64 n).toInt = n ∧
      (-BitVec.ofNat 64 n).toInt = -n := by
  have hself : (n : ℤ).bmod (2 ^ 64) = n := Int.bmod_eq_of_le (by omega) (by omega)
  rw [BitVec.toInt_neg, BitVec.toInt_ofNat', hself]
  exact ⟨rfl, Int.bmod_eq_of_le (by omega) (by omega)⟩

/-- Up to eight bytes `set_vch` reads the number the string stands for. -/
theorem set_vch_eq {vch : Valtype} (h : vch.length ≤ 8) : set_vch vch = number vch := by
  obtain rfl | ⟨front, b, rfl⟩ := vch.eq_nil_or_concat
  · rfl
  · rw [concat_eq_append] at *
    have hor := orBytes_eq 64 0 0 (front ++ [b]) (by decide)
    have hlt := two_mul_number_lt front b
    have hpow : (256 : ℕ) ^ front.length = 2 ^ (8 * front.length) := by
      rw [show 256 = 2 ^ 8 by rfl, pow_mul]
    have hle : (256 : ℕ) ^ (front.length + 1) ≤ 256 ^ 8 :=
      Nat.pow_le_pow_right (by decide) (by simpa using h)
    rw [natAbs_number_concat] at hlt
    rw [zero_add, mul_zero, pow_zero, one_mul, decode_append, decode, decode, mul_zero, add_zero] at hor
    rw [number_concat, set_vch, getLast?_concat]
    simp only [and_sign, decide_eq_true_eq, hor]
    split_ifs with hsign
    · have hspl : decode front + 256 ^ front.length * b.toNat =
          2 ^ (8 * front.length + 7) + (decode front + 256 ^ front.length * (b.toNat % 128)) := by
        have := b.toNat_lt
        rw [pow_add, ← hpow, show b.toNat = 128 + b.toNat % 128 by omega]
        simp only [add_mod_left, mod_mod]
        ring
      rw [length_append, length_singleton, Nat.add_sub_cancel, hspl, clear_sign]
      · exact (toInt_ofNat_of_lt (by omega)).2
      · rw [pow_add, ← hpow]
        omega
    · rw [mod_eq_of_lt (by omega)] at *
      exact (toInt_ofNat_of_lt (by omega)).1

theorem length_serialize_le {v : ℤ} (hlow : -2 ^ 63 < v) (hhigh : v < 2 ^ 63) :
    (serialize v).length ≤ 8 := by
  obtain ⟨hnum, hlen⟩ := serialize_spec v
  rw [Canonical, hnum] at hlen
  by_contra hlong
  have hle := pow_le_two_mul (show 0 < byteSize v.natAbs by omega)
  have hpow : (256 : ℕ) ^ 8 ≤ 256 ^ (byteSize v.natAbs - 1) :=
    Nat.pow_le_pow_right (by decide) (by omega)
  omega

theorem number_padTo (size : ℕ) (rawnum : Valtype) : number (padTo size rawnum) = number rawnum := by
  obtain rfl | ⟨front, b, rfl⟩ := rawnum.eq_nil_or_concat
  · simp [padTo, number_concat, decode_replicate_zero]
  · rw [concat_eq_append, padTo, getLast?_concat]
    simp only [dropLast_concat, number_concat, toNat_and_sign, decode_append,
      decode_replicate_zero, decode, toNat_and_rest, mul_zero, add_zero]
    by_cases hsign : 128 ≤ b.toNat <;> simp [hsign]

theorem OP_NUM2BIN_eq {fRequireMinimal : Bool} {top : Valtype} {size : ℕ} (x : Valtype)
    (stack : List Valtype) (htop : CScriptNum top fRequireMinimal = .ok size)
    (hsize : size ≤ MAX_SCRIPT_ELEMENT_SIZE) :
    OP_NUM2BIN fRequireMinimal (top :: x :: stack) = if (createSmallestFormat x).length ≤ size then
        .ok ((if (createSmallestFormat x).length = size then createSmallestFormat x
          else padTo size (createSmallestFormat x)) :: stack) else .error .IMPOSSIBLE_ENCODING := by
  have hget : (getint size % 2 ^ 64).toNat = size := by
    rw [MAX_SCRIPT_ELEMENT_SIZE] at hsize
    rw [getint]
    omega
  simp only [OP_NUM2BIN, htop, bind, Except.bind, hget, gt_iff_lt, not_lt.mpr hsize, if_false, pure,
    Except.pure]
  split_ifs <;> first | rfl | omega

/-- `OP_BIN2NUM` finds the one smallest format of whatever string stands for the number. -/
theorem OP_BIN2NUM_of_number {n x : Valtype} (stack : List Valtype) (h : number n = number x) :
    OP_BIN2NUM (n :: stack) = if (createSmallestFormat x).length ≤ nDefaultMaxNumSize then
      .ok (createSmallestFormat x :: stack) else .error .INVALID_NUMBER_RANGE := by
  have hn := createSmallestFormat_spec n
  have hx := createSmallestFormat_spec x
  have hsmallest := isSmallestFormat_iff (createSmallestFormat x) nDefaultMaxNumSize
  rw [OP_BIN2NUM, hn.2.unique hx.2 (by rw [hn.1, hx.1, h])]
  split_ifs <;> simp_all

/-- What makes the smallest format the one form of a number. -/
structure OneForm : Prop where
  /-- A 64-bit value other than the least one comes back from its serialization. -/
  decoded : ∀ (v : ℤ) (fRequireMinimal : Bool) (nMaxNumSize : ℕ), -2 ^ 63 < v → v < 2 ^ 63 →
    (serialize v).length ≤ nMaxNumSize → CScriptNum (serialize v) fRequireMinimal nMaxNumSize = .ok v ∧
      isSmallestFormat (serialize v) nMaxNumSize = true
  number_eq : ∀ vch : Valtype, vch.length ≤ 8 → set_vch vch = number vch
  smallest_iff : ∀ (vch : Valtype) (nMaxNumSize : ℕ),
    isSmallestFormat vch nMaxNumSize = true ↔ vch.length ≤ nMaxNumSize ∧ serialize (number vch) = vch
  created : ∀ (x : Valtype) (nMaxNumSize : ℕ), (createSmallestFormat x).length ≤ nMaxNumSize →
    isSmallestFormat (createSmallestFormat x) nMaxNumSize = true
  number_created : ∀ x : Valtype, number (createSmallestFormat x) = number x
  num2bin_iff : ∀ (fRequireMinimal : Bool) (top x : Valtype) (size : ℕ) (stack : List Valtype),
    CScriptNum top fRequireMinimal = .ok size → size ≤ MAX_SCRIPT_ELEMENT_SIZE →
      ((∃ after, OP_NUM2BIN fRequireMinimal (top :: x :: stack) = .ok after) ↔
        (createSmallestFormat x).length ≤ size)
  bin2num : ∀ (fRequireMinimal : Bool) (top x : Valtype) (size : ℕ) (stack after : List Valtype),
    CScriptNum top fRequireMinimal = .ok size → size ≤ MAX_SCRIPT_ELEMENT_SIZE →
      OP_NUM2BIN fRequireMinimal (top :: x :: stack) = .ok after →
        OP_BIN2NUM after = if (createSmallestFormat x).length ≤ nDefaultMaxNumSize then
          .ok (createSmallestFormat x :: stack)
          else .error .INVALID_NUMBER_RANGE

/-- The smallest format is the one form of a number. -/
theorem scriptNum_oneForm : OneForm where
  decoded v fRequireMinimal nMaxNumSize hlow hhigh hfits := by
    obtain ⟨hnum, hcan⟩ := serialize_spec v
    have hsmallest := (isSmallestFormat_iff (serialize v) nMaxNumSize).mpr ⟨hfits, hcan⟩
    rw [CScriptNum, if_neg (not_lt.mpr hfits), hsmallest,
      set_vch_eq (length_serialize_le hlow hhigh), hnum]
    simp
  number_eq _ h := set_vch_eq h
  smallest_iff vch nMaxNumSize := by
    rw [isSmallestFormat_iff]
    apply and_congr_right
    intro _
    obtain ⟨hnum, hcan⟩ := serialize_spec (number vch)
    exact ⟨fun h => hcan.unique h hnum, fun h => h ▸ hcan⟩
  created x nMaxNumSize h := (isSmallestFormat_iff _ _).mpr ⟨h, (createSmallestFormat_spec x).2⟩
  number_created x := (createSmallestFormat_spec x).1
  num2bin_iff fRequireMinimal top x size stack htop hsize := by
    rw [OP_NUM2BIN_eq x stack htop hsize]
    split_ifs with h <;> simp [h]
  bin2num fRequireMinimal top x size stack after htop hsize h := by
    have hnum := (createSmallestFormat_spec x).1
    rw [OP_NUM2BIN_eq x stack htop hsize] at h
    split_ifs at h <;> cases h
    · exact OP_BIN2NUM_of_number stack hnum
    · exact OP_BIN2NUM_of_number stack ((number_padTo _ _).trans hnum)

/-- Five bytes in smallest format pass `OP_NUM2BIN` and are refused by `OP_BIN2NUM`. -/
theorem bin2num_refuses_five_bytes : OP_NUM2BIN true [[5], [1, 2, 3, 4, 5]] = .ok [[1, 2, 3, 4, 5]] ∧
    createSmallestFormat [1, 2, 3, 4, 5] = [1, 2, 3, 4, 5] ∧
    OP_BIN2NUM [[1, 2, 3, 4, 5]] = .error .INVALID_NUMBER_RANGE := by
  decide +kernel

end FloweeHub.Script
