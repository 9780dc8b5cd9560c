import FloweeHub.Lib.Radix
import FloweeHub.Primitives.Transaction

/-! Base58, and its form with a checksum. The buffers are sized by approximations of the logarithm;
there is no result when an assert finds a carry. Both directions are exact. -/

namespace FloweeHub.Base58

open Lib.Radix List Nat

/-- All alphanumeric characters except for "0", "I", "O", and "l". -/
def pszBase58 : List Char := "123456789ABCDEFGHJKLMNPQRSTUVWXYZabcdefghijkmnopqrstuvwxyz".toList

/-- `ch - pszBase58` for the place `ch` of the character. -/
def digitOf (c : Char) : ℕ := pszBase58.idxOf c

def charOf (d : ℕ) : Char := pszBase58.getD d '1'

def isspace (c : Char) : Bool := c ∈ [' ', '\t', '\n', '\x0b', '\x0c', '\r']

/-- The result is none for `false`. -/
def DecodeBase58 (psz : List Char) : Option (Option Bytes) :=
  let psz := psz.dropWhile isspace
  let zeroes := psz.takeWhile (· = '1')
  let psz := psz.dropWhile (· = '1')
  -- the loop ends at a space; at another character that is no digit it returns false, as the last
  -- test does
  let digits := psz.takeWhile (· ∈ pszBase58)
  (convert 58 256 (psz.length * 733 / 1000 + 1) (digits.map digitOf)).map fun b256 =>
    if (psz.drop digits.length).dropWhile isspace ≠ [] then none
    else some (zeroes.map (fun _ => 0) ++ (strip b256).map UInt8.ofNat)

def EncodeBase58 (vch : Bytes) : Option (List Char) :=
  let zeroes := vch.takeWhile (· = 0)
  let vch := vch.dropWhile (· = 0)
  (convert 256 58 (vch.length * 138 / 100 + 1) (vch.map UInt8.toNat)).map fun b58 =>
    zeroes.map (fun _ => '1') ++ (strip b58).map charOf

variable (Hash : Bytes → Uint256)

def checksum (vch : Bytes) : Bytes := (Hash vch).toBytes.take 4

def DecodeBase58Check (psz : List Char) : Option (Option Bytes) :=
  (DecodeBase58 psz).map fun vch => vch.bind fun vch =>
    if vch.length < 4 then none
    else if checksum Hash (vch.take (vch.length - 4)) ≠ vch.drop (vch.length - 4) then none
    else some (vch.take (vch.length - 4))

theorem digitOf_charOf : ∀ d < 58, digitOf (charOf d) = d ∧ charOf d ∈ pszBase58 := by decide +kernel

theorem charOf_digitOf : ∀ c ∈ pszBase58, charOf (digitOf c) = c ∧ digitOf c < 58 ∧ isspace c = false :=
  forall_iff_forall_mem.mp (by decide +kernel)

theorem EncodeBase58_eq (vch : Bytes) :
    EncodeBase58 vch = some ((change 256 58 (vch.map UInt8.toNat)).map charOf) := by
  have hcomp : (fun d => decide (d = 0)) ∘ UInt8.toNat = fun v => decide (v = 0) := by
    funext v
    simp [← UInt8.toNat_inj]
  have hroom : 256 ^ ((vch.dropWhile (· = 0)).map UInt8.toNat).length ≤
      58 ^ ((vch.dropWhile (· = 0)).length * 138 / 100 + 1) := by
    rw [length_map]
    exact room (by decide) (by decide) (by decide +kernel) _
  obtain ⟨ds, hds, hstrip⟩ := convert_spec (by decide) (by decide) (forall_mem_map.mpr fun v _ =>
    v.toNat_lt) hroom
  rw [EncodeBase58, hds, change, takeWhile_map, dropWhile_map, hcomp, ← hstrip, map_append, map_map,
    Option.map_some]
  congr 2
  refine map_congr_left fun v hv => ?_
  have hzero : v = 0 := by simpa using mem_takeWhile_imp hv
  rw [hzero]
  rfl

theorem convert_isSome (psz : List Char) :
    ∃ ds, convert 58 256 (psz.length * 733 / 1000 + 1) ((psz.takeWhile (· ∈ pszBase58)).map
      digitOf) = some ds ∧
      strip ds = (digits 256
        (ofDigits 58 ((psz.takeWhile (· ∈ pszBase58)).map digitOf).reverse)).reverse := by
  refine convert_spec (by decide) (by decide) (forall_mem_map.mpr fun c hc => ?_) ?_
  · exact (charOf_digitOf c (by simpa using mem_takeWhile_imp hc)).2.1
  · rw [length_map]
    exact (Nat.pow_le_pow_right (by decide) (takeWhile_sublist _).length_le).trans
      (room (by decide) (by decide) (by decide +kernel) _)

theorem takeWhile_append_of_neg {p : Char → Bool} {t : List Char} (ht : ∀ c ∈ t, p c = false)
    (s : List Char) :
    (s ++ t).takeWhile p = s.takeWhile p ∧ (s ++ t).dropWhile p = s.dropWhile p ++ t := by
  induction s with
  | nil => cases t <;> simp_all
  | cons c s ih => cases hc : p c <;> simp [hc, ih]

theorem DecodeBase58_eq {front s back : List Char} (hfront : ∀ c ∈ front, isspace c)
    (hs : ∀ c ∈ s, c ∈ pszBase58) (hback : ∀ c ∈ back, isspace c) :
    DecodeBase58 (front ++ s ++ back) =
      some (some ((change 58 256 (s.map digitOf)).map UInt8.ofNat)) := by
  obtain ⟨tail, htail, hpsz⟩ : ∃ tail, (∀ c ∈ tail, isspace c) ∧
      (front ++ s ++ back).dropWhile isspace = s ++ tail := by
    rw [append_assoc, dropWhile_append_of_pos hfront]
    cases s with
    | nil => exact ⟨[], by simp, by simpa using hback⟩
    | cons c s =>
      exact ⟨back, hback, dropWhile_cons_of_neg (by simp [charOf_digitOf c (hs c mem_cons_self)])⟩
  have hout : ∀ c ∈ tail, decide (c ∈ pszBase58) = false := fun c hc => decide_eq_false fun hin =>
    absurd (htail c hc) (by simp [charOf_digitOf c hin])
  have hone : ∀ c ∈ tail, decide (c = '1') = false := fun c hc => decide_eq_false fun heq =>
    of_decide_eq_false (hout c hc) (heq ▸ by decide)
  have hcomp : (fun d => decide (d = 0)) ∘ digitOf = fun c => decide (c = '1') := by
    funext c
    exact decide_eq_decide.mpr ((idxOf_eq_zero_iff_head_eq (by decide)).trans eq_comm)
  have hdigits : (s.dropWhile (· = '1')).takeWhile (· ∈ pszBase58) = s.dropWhile (· = '1') :=
    takeWhile_eq_self_iff.mpr fun c hc => by simpa using hs c ((dropWhile_sublist _).mem hc)
  obtain ⟨ds, hds, hstrip⟩ := convert_isSome (s.dropWhile (· = '1') ++ tail)
  rw [(takeWhile_append_of_neg hout _).1, hdigits] at hds hstrip
  unfold DecodeBase58
  dsimp only
  rw [hpsz, (takeWhile_append_of_neg hone s).1, (takeWhile_append_of_neg hone s).2,
    (takeWhile_append_of_neg hout _).1, hdigits, hds, drop_left, dropWhile_eq_nil_iff.mpr htail,
    change, takeWhile_map, dropWhile_map, hcomp, ← hstrip, map_append, map_map, Option.map_some,
    if_neg (by simp)]
  congr 3
  refine map_congr_left fun c hc => ?_
  have hzero : c = '1' := by simpa using mem_takeWhile_imp hc
  rw [hzero]
  decide

theorem map_map_inverse {α β : Type*} {f : α → β} {g : β → α} {l : List α} (h : ∀ x ∈ l, g (f x) = x) :
    (l.map f).map g = l := by
  rw [map_map]
  exact (map_congr_left h).trans (map_id' l)

/-- Both directions are exact, no assert fails, and the checksum is that of the bytes in front. -/
theorem base58_exact :
    (∀ b, ∃ s, EncodeBase58 b = some s ∧ DecodeBase58 s = some (some b)) ∧
    (∀ front s back, (∀ c ∈ front ++ back, isspace c) → (∀ c ∈ s, c ∈ pszBase58) →
      ∃ b, DecodeBase58 (front ++ s ++ back) = some (some b) ∧ EncodeBase58 b = some s) ∧
    (∀ psz, (DecodeBase58 psz).isSome ∧ ∀ vch, DecodeBase58Check Hash psz = some (some vch) ↔
      DecodeBase58 psz = some (some (vch ++ checksum Hash vch))) := by
  refine ⟨fun b => ?_, fun front s back hspace hs => ?_, fun psz => ?_⟩
  · have hlt := change_lt 256 (by decide : 1 < 58) (b.map UInt8.toNat)
    have hdec := @DecodeBase58_eq [] _ [] (by simp) (forall_mem_map.mpr fun d hd =>
      (digitOf_charOf d (hlt d hd)).2) (by simp)
    refine ⟨_, EncodeBase58_eq b, ?_⟩
    rw [nil_append, append_nil] at hdec
    rw [hdec, map_map_inverse fun d hd => (digitOf_charOf d (hlt d hd)).1,
      change_change (by decide) (by decide) (forall_mem_map.mpr fun v _ => v.toNat_lt),
      map_map_inverse fun v _ => UInt8.ofNat_toNat]
  · have hlt := change_lt 58 (by decide : 1 < 256) (s.map digitOf)
    obtain ⟨hfront, hback⟩ := forall_mem_append.mp hspace
    refine ⟨_, DecodeBase58_eq hfront hs hback, ?_⟩
    rw [EncodeBase58_eq, map_map_inverse (f := UInt8.ofNat) fun d hd =>
      UInt8.toNat_ofNat_of_lt' (hlt d hd),
      change_change (by decide) (by decide) (forall_mem_map.mpr fun c hc =>
        (charOf_digitOf c (hs c hc)).2.1),
      map_map_inverse fun c hc => (charOf_digitOf c (hs c hc)).1]
  · obtain ⟨ds, hds, -⟩ := convert_isSome ((psz.dropWhile isspace).dropWhile (· = '1'))
    obtain ⟨r, hr⟩ : ∃ r, DecodeBase58 psz = some r := by
      unfold DecodeBase58
      dsimp only
      rw [hds]
      exact ⟨_, rfl⟩
    rw [DecodeBase58Check, hr]
    refine ⟨rfl, fun vch => ?_⟩
    cases r with
    | none => simp
    | some bytes =>
      have hlen : (checksum Hash vch).length = 4 := by
        rw [checksum, length_take, Uint256.length_toBytes]; rfl
      simp only [Option.map_some, Option.bind_some, Option.some.injEq]
      constructor
      · intro h
        split_ifs at h with hshort hsum
        rw [← Option.some.inj h, not_not.mp hsum, take_append_drop]
      · rintro rfl
        rw [if_neg (by rw [length_append]; omega), length_append, hlen, Nat.add_sub_cancel,
          take_left, drop_left, if_neg (by simp)]

end FloweeHub.Base58
