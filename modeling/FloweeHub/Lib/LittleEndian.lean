import Mathlib.Tactic.Ring

/-! Numbers as little-endian byte strings of a fixed width, unsigned or in two's complement. -/

namespace FloweeHub.Lib.LittleEndian

/-- The lowest `width` bytes of `n`, lowest first. -/
def encode : ℕ → ℕ → List UInt8
  | 0, _ => []
  | width + 1, n => UInt8.ofNat (n % 256) :: encode width (n / 256)

def decode : List UInt8 → ℕ
  | [] => 0
  | b :: bs => b.toNat + 256 * decode bs

@[simp] theorem length_encode (width n : ℕ) : (encode width n).length = width := by
  induction width generalizing n with
  | zero => rfl
  | succ width ih => simp [encode, ih]

variable (bs : List UInt8)

theorem decode_lt : decode bs < 256 ^ bs.length := by
  induction bs with
  | nil => simp [decode]
  | cons b bs ih =>
    have hb : b.toNat < 256 := b.toNat_lt
    rw [decode, List.length_cons, Nat.pow_succ]
    omega

theorem decode_encode (width n : ℕ) : decode (encode width n) = n % 256 ^ width := by
  induction width generalizing n with
  | zero => simp [encode, decode, Nat.mod_one]
  | succ width ih =>
    have hb : (UInt8.ofNat (n % 256)).toNat = n % 256 := by rw [UInt8.toNat_ofNat']; omega
    rw [encode, decode, ih, hb, Nat.pow_succ, Nat.mul_comm (256 ^ width), Nat.mod_mul]

theorem encode_decode : encode bs.length (decode bs) = bs := by
  induction bs with
  | nil => rfl
  | cons b bs ih =>
    have hb : b.toNat < 256 := b.toNat_lt
    rw [List.length_cons, encode, decode, show (b.toNat + 256 * decode bs) % 256 = b.toNat by omega,
      show (b.toNat + 256 * decode bs) / 256 = decode bs by omega, ih, UInt8.ofNat_toNat]

theorem decode_injective {as bs : List UInt8} (hl : as.length = bs.length)
    (h : decode as = decode bs) : as = bs := by
  rw [← encode_decode as, ← encode_decode bs, hl, h]

def encodeInt (width : ℕ) (v : ℤ) : List UInt8 := encode width (v % (256 ^ width : ℕ)).toNat

def decodeInt : ℤ := (decode bs : ℤ).bmod (256 ^ bs.length)

@[simp] theorem length_encodeInt (width : ℕ) (v : ℤ) : (encodeInt width v).length = width :=
  length_encode width _

theorem encodeInt_decodeInt : encodeInt bs.length (decodeInt bs) = bs := by
  have hlt : (decode bs : ℤ) < (256 ^ bs.length : ℕ) := by exact_mod_cast decode_lt bs
  rw [encodeInt, decodeInt, Int.bmod_emod, Int.emod_eq_of_lt (by omega) hlt, Int.toNat_natCast,
    encode_decode]

theorem decodeInt_encodeInt (width : ℕ) (v : ℤ) :
    decodeInt (encodeInt width v) = v.bmod (256 ^ width) := by
  have hpos : (0 : ℤ) < (256 ^ width : ℕ) := by exact_mod_cast Nat.pow_pos (by decide)
  have hle : 0 ≤ v % (256 ^ width : ℕ) := Int.emod_nonneg v hpos.ne'
  have hlt : (v % (256 ^ width : ℕ)).toNat < 256 ^ width := by
    omega
  rw [decodeInt, length_encodeInt, encodeInt, decode_encode, Nat.mod_eq_of_lt hlt,
    Int.toNat_of_nonneg hle, Int.emod_bmod]

end FloweeHub.Lib.LittleEndian
