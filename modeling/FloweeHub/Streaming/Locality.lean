import FloweeHub.Streaming.RoundTrip

/-! A field depends on its own bytes only: it is found alike in a longer and in a shorter buffer
that holds it. -/

namespace FloweeHub.Streaming

open Lib List Option

variable {data rest : Bytes} {n type position v used result stop : ℕ} {r : ℕ × ℕ}

theorem unserializeFrom_bounds (h : unserializeFrom n data result used = some r) :
    used < r.2 ∧ r.2 ≤ used + data.length ∧ r.1 < 2 ^ 64 := by
  induction n generalizing data result used with
  | zero => cases h
  | succ n ih =>
    cases data with
    | nil => cases h
    | cons byte data =>
      simp only [unserializeFrom] at h
      rw [length_cons]
      split_ifs at h with hmore
      · have := ih h
        omega
      · cases h
        exact ⟨Nat.lt_succ_self used, by omega, Nat.mod_lt _ (by decide)⟩

theorem unserializeFrom_append (h : unserializeFrom n data result used = some r) (rest : Bytes) :
    unserializeFrom n (data ++ rest) result used = some r := by
  induction n generalizing data result used with
  | zero => cases h
  | succ n ih =>
    cases data with
    | nil => cases h
    | cons byte data =>
      simp only [unserializeFrom, cons_append] at h ⊢
      split_ifs at h ⊢ with hmore
      · exact ih h
      · exact h

theorem unserializeFrom_of_append (h : unserializeFrom n (data ++ rest) result used = some r)
    (hend : r.2 ≤ used + data.length) : unserializeFrom n data result used = some r := by
  induction n generalizing data result used with
  | zero => cases h
  | succ n ih =>
    cases data with
    | nil =>
      have hused := (unserializeFrom_bounds h).1
      simp only [length_nil] at hend
      omega
    | cons byte data =>
      simp only [unserializeFrom, cons_append] at h ⊢
      simp only [length_cons] at hend
      split_ifs at h ⊢ with hmore
      · exact ih h (by omega)
      · exact h

theorem unserialize_lt (h : unserialize data position = some (v, stop)) : position < stop := by
  obtain ⟨r, hr, heq⟩ := map_eq_some_iff.mp h
  cases heq
  have := (unserializeFrom_bounds hr).1
  omega

theorem unserialize_append (h : unserialize data position = some (v, stop)) (rest : Bytes) :
    unserialize (data ++ rest) position = some (v, stop) := by
  obtain ⟨r, hr, heq⟩ := map_eq_some_iff.mp h
  rcases Nat.le_or_le position data.length with hle | hle
  · rw [unserialize, drop_append_of_le_length hle, unserializeFrom_append hr, map_some, heq]
  · rw [drop_eq_nil_of_le hle] at hr
    cases hr

theorem unserialize_of_append (h : unserialize (data ++ rest) position = some (v, stop))
    (hend : stop ≤ data.length) : unserialize data position = some (v, stop) := by
  obtain ⟨r, hr, heq⟩ := map_eq_some_iff.mp h
  obtain ⟨-, hstop⟩ := Prod.mk.inj heq
  rw [drop_append_of_le_length (by omega)] at hr
  rw [unserialize, unserializeFrom_of_append hr (by rw [length_drop]; omega), map_some, heq]

def MessageParser.over (p : MessageParser) (data : Bytes) : MessageParser := { p with data := data }

namespace MessageParser

variable {p q : MessageParser}

/-- The end of the bytes that were read for the field the parser stands on. -/
def extent (q : MessageParser) : ℤ :=
  if q.valueState = .valueParsed then q.position else max q.dataStart q.position

/-- What one call of `next` reads, by the type of the field. -/
inductive Reads (type : ℕ) (p : MessageParser) : MessageParser → Prop
  | number (value stop : ℕ) :
    (type = 0 ∨ type = 1) → unserialize p.data (p.position + 1) = some (value, stop) →
      Reads type p { p with position := stop, value := numberValue type value }
  | array (value start stop : ℕ) (length : ℤ) : (type = 2 ∨ type = 3) →
    unserialize p.data (p.position + 1) = some (value, start) →
      (start + Wrap64.wrap value : ℤ) = stop → toInt32 value = length → stop ≤ p.data.length →
      Reads type p { p with
        valueState := if type = 3 then .lazyByteArray else .lazyString
        dataStart := start
        dataLength := length
        position := stop }
  | bool (b : Bool) : type = (if b then 4 else 5) →
    Reads type p { p with value := .bool b, position := p.position + 1 }
  | double : type = 6 →
      Reads type p { p with
        value := .double ((p.data.drop (p.position + 1)).take 8), position := p.position + 9 }

theorem readValue_number_eq (htype : type = 0 ∨ type = 1) (p : MessageParser) :
    readValue type p = match unserialize p.data (p.position + 1) with
      | none => (.error, p)
      | some (v, pos) => (.foundTag, { p with position := pos, value := numberValue type v }) := by
  rcases htype with rfl | rfl <;> rfl

theorem readValue_array_eq (htype : type = 2 ∨ type = 3) (p : MessageParser) :
    readValue type p = match unserialize p.data (p.position + 1) with
      | none => (.error, p)
      | some (v, newPos) =>
        if (newPos + Wrap64.wrap v : ℤ) < 0 ∨ (p.data.length : ℤ) < newPos + Wrap64.wrap v then
          (.error, p)
        else (.foundTag, { p with
          valueState := if type = 3 then .lazyByteArray else .lazyString
          dataStart := newPos
          dataLength := toInt32 v
          position := (newPos + Wrap64.wrap v : ℤ).toNat }) := by
  rcases htype with rfl | rfl <;> rfl

theorem readValue_iff : readValue type p = (.foundTag, q) ↔ Reads type p q := by
  constructor
  · intro h
    rcases Nat.lt_or_ge type 2 with htype | htype
    · replace htype : type = 0 ∨ type = 1 := by omega
      rw [readValue_number_eq htype] at h
      split at h
      · cases h
      · obtain rfl := (Prod.mk.inj h).2
        exact .number _ _ htype ‹_›
    rcases Nat.lt_or_ge type 4 with hsm | hlg
    · replace htype : type = 2 ∨ type = 3 := by omega
      rw [readValue_array_eq htype] at h
      split at h
      · cases h
      · rename_i v start hread
        by_cases hbad : (start + Wrap64.wrap v : ℤ) < 0 ∨ (p.data.length : ℤ) < start + Wrap64.wrap v
        · rw [if_pos hbad] at h
          cases h
        · rw [if_neg hbad] at h
          obtain ⟨hnonneg, hle⟩ := not_or.mp hbad
          have hstop := (Int.toNat_of_nonneg (not_lt.mp hnonneg)).symm
          obtain rfl := (Prod.mk.inj h).2
          refine .array v start _ _ htype hread hstop rfl ?_
          rw [hstop] at hle
          exact_mod_cast not_lt.mp hle
    · match type, hlg with
      | 4, _ =>
        obtain rfl := (Prod.mk.inj h).2
        exact .bool true rfl
      | 5, _ =>
        obtain rfl := (Prod.mk.inj h).2
        exact .bool false rfl
      | 6, _ =>
        obtain rfl := (Prod.mk.inj h).2
        exact .double rfl
      | _ + 7, _ => cases h
  · intro h
    cases h with
    | number v stop htype hread => rw [readValue_number_eq htype, hread]
    | array v start stop length htype hread hstop hlen hle =>
      rw [readValue_array_eq htype, hread]
      simp only [hstop, hlen, Int.toNat_natCast]
      exact if_neg (by omega)
    | bool b htype => cases b <;> subst htype <;> rfl
    | double htype => subst htype; rfl

theorem Reads.data_eq (h : Reads type p q) : q.data = p.data := by
  cases h <;> rfl

theorem Reads.of_append (h : Reads type p q) (hp : p.data = data ++ rest)
    (hs : p.valueState = .valueParsed) (hend : q.extent ≤ data.length) : p.position < data.length ∧
      Reads type (p.over data) (q.over data) := by
  cases h with
  | number v stop htype hread =>
    rw [hp] at hread
    have hstop : stop ≤ data.length := by
      have : (stop : ℤ) ≤ data.length := by simpa only [extent, hs, if_true] using hend
      omega
    have hlt := unserialize_lt hread
    exact ⟨by omega, .number v stop htype (unserialize_of_append hread hstop)⟩
  | array v start stop length htype hread hstop hlen hle =>
    rw [hp] at hread
    have hlazy : (if type = 3 then ValueState.lazyByteArray else .lazyString) ≠ .valueParsed := by
      split_ifs <;> decide
    have hmax : max (start : ℤ) stop ≤ data.length := by simpa only [extent, hlazy, if_false] using hend
    have hlt := unserialize_lt hread
    have hst : start ≤ data.length := by omega
    have hle' : stop ≤ data.length := by omega
    have hread' := unserialize_of_append hread hst
    exact ⟨by omega, .array v start stop length htype hread' hstop hlen hle'⟩
  | bool b htype =>
    have : (p.position + 1 : ℤ) ≤ data.length := by simpa [extent, hs] using hend
    exact ⟨by omega, .bool b htype⟩
  | double htype =>
    have hpos : (p.position + 9 : ℤ) ≤ data.length := by simpa [extent, hs] using hend
    refine ⟨by omega, ?_⟩
    have hraw : (p.data.drop (p.position + 1)).take 8 = (data.drop (p.position + 1)).take 8 := by
      rw [hp, drop_append_of_le_length (by omega), take_append_of_le_length (by rw [length_drop]; omega)]
    simp only [hraw]
    exact .double htype

theorem Reads.append (h : Reads type p q) (rest : Bytes) :
    ∃ r, Reads type (p.over (p.data ++ rest)) r := by
  cases h with
  | number v stop htype hread => exact ⟨_, .number v stop htype (unserialize_append hread rest)⟩
  | array v start stop length htype hread hstop hlen hle =>
    have hle' : stop ≤ (p.data ++ rest).length := by
      rw [length_append]
      omega
    exact ⟨_, .array v start stop length htype (unserialize_append hread rest) hstop hlen hle'⟩
  | bool b htype => exact ⟨_, .bool b htype⟩
  | double htype => exact ⟨_, .double htype⟩

/-- The two ways of finding a field: its tag stands in the first byte or behind it. -/
inductive Finds (p : MessageParser) : MessageParser → Prop
  | small (byte : UInt8) {q : MessageParser} : p.data[p.position]? = some byte → byte.toNat / 8 ≠ 31 →
      Reads (byte.toNat % 8) { p with valueState := .valueParsed, tag := byte.toNat / 8 } q → Finds p q
  | large (byte : UInt8) (tag stop : ℕ) {q : MessageParser} : p.data[p.position]? = some byte →
    byte.toNat / 8 = 31 →
      unserialize p.data (p.position + 1) = some (tag, stop) → tag ≤ 0xFFFFFFFF →
      Reads (byte.toNat % 8) { p with valueState := .valueParsed, tag := tag, position := stop - 1 }
        q → Finds p q

theorem next_iff : p.next = (.foundTag, q) ↔ Finds p q := by
  constructor
  · intro h
    unfold next at h
    split at h
    · cases h
    · rename_i byte hbyte
      by_cases htag : byte.toNat / 8 = 31
      · simp only [htag, if_true] at h
        split at h
        · cases h
        · rename_i tag stop hread
          by_cases hlg : 0xFFFFFFFF < tag
          · rw [if_pos hlg] at h
            cases h
          · rw [if_neg hlg] at h
            exact .large byte tag stop hbyte htag hread (not_lt.mp hlg) (readValue_iff.mp h)
      · rw [if_neg htag] at h
        exact .small byte hbyte htag (readValue_iff.mp h)
  · intro h
    cases h with
    | small byte hbyte htag hrd =>
      unfold next
      rw [hbyte]
      exact (if_neg htag).trans (readValue_iff.mpr hrd)
    | large byte tag stop hbyte htag hread hsm hrd =>
      unfold next
      rw [hbyte]
      simp only [htag, if_true, hread, if_neg (not_lt.mpr hsm)]
      exact readValue_iff.mpr hrd

theorem next_data (h : p.next = (.foundTag, q)) : q.data = p.data := by
  rw [next_iff] at h
  cases h with
  | small byte hbyte htag hrd => exact hrd.data_eq
  | large byte tag stop hbyte htag hread hsm hrd => exact hrd.data_eq

theorem next_of_append (hp : p.data = data ++ rest) (h : p.next = (.foundTag, q))
    (hend : q.extent ≤ data.length) :
    (p.over data).next = (.foundTag, q.over data) := by
  rw [next_iff] at h ⊢
  cases h with
  | small byte hbyte htag hrd =>
    obtain ⟨hlt, hrd'⟩ := hrd.of_append hp rfl hend
    rw [hp, getElem?_append_left hlt] at hbyte
    exact .small byte hbyte htag hrd'
  | large byte tag stop hbyte htag hread hsm hrd =>
    obtain ⟨hlt, hrd'⟩ := hrd.of_append hp rfl hend
    replace hlt : stop - 1 < data.length := hlt
    have hbef := unserialize_lt hread
    rw [hp] at hread
    rw [hp, getElem?_append_left (by omega)] at hbyte
    have hread' : unserialize data (p.position + 1) = some (tag, stop) :=
      unserialize_of_append hread (by omega)
    exact .large byte tag stop hbyte htag hread' hsm hrd'

theorem next_append (h : p.next = (.foundTag, q)) (rest : Bytes) :
    ∃ r, (p.over (p.data ++ rest)).next = (.foundTag, r) := by
  rw [next_iff] at h
  cases h with
  | small byte hbyte htag hrd =>
    obtain ⟨r, hr⟩ := hrd.append rest
    obtain ⟨hlt, -⟩ := List.getElem?_eq_some_iff.mp hbyte
    exact ⟨r, next_iff.mpr (.small byte ((List.getElem?_append_left hlt).trans hbyte) htag hr)⟩
  | large byte tag stop hbyte htag hread hsm hrd =>
    obtain ⟨r, hr⟩ := hrd.append rest
    obtain ⟨hlt, -⟩ := List.getElem?_eq_some_iff.mp hbyte
    exact ⟨r, next_iff.mpr (.large byte tag stop ((List.getElem?_append_left hlt).trans hbyte) htag
      (unserialize_append hread rest) hsm hr)⟩

end MessageParser

end FloweeHub.Streaming
