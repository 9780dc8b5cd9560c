import FloweeHub.Lib.Guards
import FloweeHub.Lib.LittleEndian

/-! Readers that take a value off the front of a byte string. A reader inverts a writer when it
succeeds exactly on what the writer makes, followed by anything. -/

namespace FloweeHub.Lib

abbrev Decoder (ε α : Type) := List UInt8 → Except ε (α × List UInt8)

namespace Decoder

open Guards Lib.LittleEndian

variable {ε α β : Type} {d : Decoder ε α} {a : α} {bs rest : List UInt8} {enc : α → List UInt8}
  {P : α → Prop}

def pure (a : α) : Decoder ε α := fun bs => .ok (a, bs)

/-- Read with `d`, then go on with what is left. -/
def andThen (d : Decoder ε α) (f : α → Decoder ε β) : Decoder ε β := fun bs => (d bs).bind fun r =>
    f r.1 r.2

variable (e : ε)

/-- The next `n` bytes; `e` is the error when there are fewer. -/
def bytes (n : ℕ) : Decoder ε (List UInt8) := fun bs =>
  if bs.length < n then .error e else .ok (bs.take n, bs.drop n)

def nat (width : ℕ) : Decoder ε ℕ := (bytes e width).andThen fun bs => pure (decode bs)

/-- A number of `width` bytes in two's complement. -/
def int (width : ℕ) : Decoder ε ℤ := (bytes e width).andThen fun bs => pure (decodeInt bs)

def many (d : Decoder ε α) : ℕ → Decoder ε (List α)
  | 0 => pure []
  | n + 1 => d.andThen fun a => (many d n).andThen fun as => pure (a :: as)

/-- `d` succeeds exactly on the writings of the values that have `P`. -/
def Inverts (d : Decoder ε α) (enc : α → List UInt8) (P : α → Prop) : Prop :=
  ∀ bs a rest, d bs = .ok (a, rest) ↔ P a ∧ bs = enc a ++ rest

theorem pure_eq_ok {b : α} : (pure a : Decoder ε α) bs = .ok (b, rest) ↔ a = b ∧ bs = rest := by
  simp [pure]

theorem andThen_eq_ok {f : α → Decoder ε β} {b : β} :
    d.andThen f bs = .ok (b, rest) ↔ ∃ a mid, d bs = .ok (a, mid) ∧ f a mid = .ok (b, rest) := by
  rw [andThen, bind_eq_ok_iff]
  exact ⟨fun ⟨r, hr, h⟩ => ⟨r.1, r.2, hr, h⟩, fun ⟨a, mid, hr, h⟩ => ⟨(a, mid), hr, h⟩⟩

theorem inverts_bytes (n : ℕ) : Inverts (bytes e n) id fun bs => bs.length = n := by
  intro bs a rest
  rw [bytes, ite_error_eq_ok_iff]
  constructor
  · rintro ⟨hn, h⟩
    obtain ⟨rfl, rfl⟩ : bs.take n = a ∧ bs.drop n = rest := by simpa using h
    exact ⟨List.length_take_of_le (not_lt.mp hn), (List.take_append_drop n bs).symm⟩
  · rintro ⟨rfl, rfl⟩
    simp

theorem inverts_nat (width : ℕ) : Inverts (nat e width) (encode width) fun n => n < 256 ^ width := by
  intro bs n rest
  simp only [nat, andThen_eq_ok, inverts_bytes e width _ _ _, pure_eq_ok]
  constructor
  · rintro ⟨a, mid, ⟨rfl, rfl⟩, rfl, rfl⟩
    exact ⟨decode_lt a, by rw [encode_decode, id]⟩
  · rintro ⟨hn, rfl⟩
    exact ⟨_, _, ⟨length_encode width n, rfl⟩,
      by rw [decode_encode, Nat.mod_eq_of_lt hn], rfl⟩

theorem inverts_int (width : ℕ) : Inverts (int e width) (encodeInt width) fun v =>
      v.bmod (256 ^ width) = v := by
  intro bs v rest
  simp only [int, andThen_eq_ok, inverts_bytes e width _ _ _, pure_eq_ok]
  constructor
  · rintro ⟨a, mid, ⟨rfl, rfl⟩, rfl, rfl⟩
    exact ⟨Int.bmod_bmod, by rw [encodeInt_decodeInt, id]⟩
  · rintro ⟨hv, rfl⟩
    exact ⟨_, _, ⟨length_encodeInt width v, rfl⟩,
      by rw [decodeInt_encodeInt, hv], rfl⟩

theorem Inverts.many (h : Inverts d enc P) (n : ℕ) :
    Inverts (many d n) (fun as => as.flatMap enc) fun as => as.length = n ∧ ∀ a ∈ as, P a := by
  induction n with
  | zero =>
    intro bs as rest
    rw [Decoder.many, pure_eq_ok]
    constructor
    · rintro ⟨rfl, rfl⟩
      simp
    · rintro ⟨⟨hl, -⟩, rfl⟩
      obtain rfl := List.length_eq_zero_iff.mp hl
      exact ⟨rfl, rfl⟩
  | succ n ih =>
    intro bs as rest
    simp only [Decoder.many, andThen_eq_ok, h _ _ _, ih _ _ _, pure_eq_ok]
    constructor
    · rintro ⟨a, _, ⟨ha, rfl⟩, as, _, ⟨⟨rfl, has⟩, rfl⟩, rfl, rfl⟩
      refine ⟨⟨List.length_cons, ?_⟩, by simp⟩
      intro b hb
      rcases List.mem_cons.mp hb with rfl | hb
      · exact ha
      · exact has b hb
    · rintro ⟨⟨hl, has⟩, rfl⟩
      obtain ⟨a, as, rfl⟩ := List.exists_cons_of_length_eq_add_one hl
      refine ⟨a, as.flatMap enc ++ rest, ⟨has a (by simp), by simp⟩, as, rest,
        ⟨⟨by simpa using hl, ?_⟩, rfl⟩, rfl, rfl⟩
      exact fun b hb => has b (by simp [hb])

theorem Inverts.read (h : Inverts d enc P)
    (ha : P a) (rest : List UInt8) : d (enc a ++ rest) = .ok (a, rest) := (h _ _ _).mpr ⟨ha, rfl⟩

end Decoder

end FloweeHub.Lib
