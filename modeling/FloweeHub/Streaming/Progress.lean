import FloweeHub.Streaming.Locality

/-! Every field takes the parser forward, apart from two kinds: a double that is cut off, and a
string or byte array whose length makes `newPos + value` wrap around. -/

namespace FloweeHub.Streaming

open Lib Wrap64 Nat List Option Prod

variable {data : Bytes} {n type position v used result stop start : ℕ}

theorem unserialize_le (h : unserialize data position = some (v, stop)) : stop ≤ data.length := by
  obtain ⟨r, hr, heq⟩ := map_eq_some_iff.mp h
  obtain ⟨rfl, rfl⟩ := mk.inj heq
  have hle := unserializeFrom_bounds hr
  rw [length_drop] at hle
  omega

theorem unserialize_value_lt (h : unserialize data position = some (v, stop)) : v < 2 ^ 64 := by
  obtain ⟨r, hr, heq⟩ := map_eq_some_iff.mp h
  obtain ⟨rfl, rfl⟩ := mk.inj heq
  exact (unserializeFrom_bounds hr).2.2

/-- The length of an array acts as a negative one exactly when the end of the array wraps. -/
theorem toInt32_length_neg (hval : v < 2 ^ 64) (hst : start < 2 ^ 31) (hstop : stop < 2 ^ 31)
    (h : (start + wrap v : ℤ) = stop) :
    (toInt32 v < 0 ↔ 2 ^ 64 ≤ start + v) ∧ start + toInt32 v = stop := by
  have hfits : toInt32 v = wrap v := by
    obtain ⟨k, hk⟩ := wrap_eq_sub_mul (v : ℤ)
    have hval' : (v : ℤ) = wrap v + 2 ^ 32 * (2 ^ 32 * k) := by omega
    rw [hval', toInt32, Int.bmod_def, ← hval']
    omega
  obtain ⟨k, hk⟩ := wrap_eq_sub_mul (v : ℤ)
  omega

namespace MessageParser

variable {p q : MessageParser} {byte : UInt8} {front p' : MessageParser} {σ ρ : Type} {size : ℕ}

/-- The type of the next field and the parser in front of its value. -/
def fieldType (p : MessageParser) : Option (ℕ × MessageParser) :=
  match p.data[p.position]? with
  | none => none
  | some byte =>
    let p := { p with valueState := .valueParsed, tag := byte.toNat / 8 }
    if byte.toNat / 8 = 31 then
      match unserialize p.data (p.position + 1) with
      | none => none
      | some (tag, pos) =>
        if 0xFFFFFFFF < tag then none
        else some (byte.toNat % 8, { p with tag := tag, position := pos - 1 })
    else some (byte.toNat % 8, p)

theorem fieldType_small (hbyte : p.data[p.position]? = some byte) (htag : ¬ byte.toNat / 8 = 31) :
    p.fieldType = some (byte.toNat % 8,
      { p with valueState := .valueParsed, tag := byte.toNat / 8 }) := by
  rw [fieldType, hbyte]
  exact if_neg htag

theorem fieldType_large {tag : ℕ} (hbyte : p.data[p.position]? = some byte)
    (htag : byte.toNat / 8 = 31) (hread : unserialize p.data (p.position + 1) = some (tag, stop))
    (hsm : tag ≤ 0xFFFFFFFF) :
    p.fieldType = some (byte.toNat % 8,
      { p with valueState := .valueParsed, tag := tag, position := stop - 1 }) := by
  rw [fieldType, hbyte]
  simp only [htag, if_true, hread, if_neg (not_lt.mpr hsm)]

/-- The first byte gives the type, and the tag unless it is long. -/
theorem fieldType_cases (h : p.fieldType = some (type, front)) :
    ∃ byte : UInt8, p.data[p.position]? = some byte ∧ type = byte.toNat % 8 ∧
      ((¬ byte.toNat / 8 = 31 ∧ front = { p with valueState := .valueParsed, tag := byte.toNat / 8 }) ∨
      ∃ tag stop, byte.toNat / 8 = 31 ∧ unserialize p.data (p.position + 1) = some (tag, stop) ∧
        tag ≤ 0xFFFFFFFF ∧
        front = { p with valueState := .valueParsed, tag := tag, position := stop - 1 }) := by
  unfold fieldType at h
  split at h
  · cases h
  · rename_i byte hbyte
    refine ⟨byte, hbyte, ?_⟩
    by_cases htag : byte.toNat / 8 = 31
    · simp only [htag, if_true] at h
      split at h
      · cases h
      · rename_i tag stop hread
        by_cases hlg : 0xFFFFFFFF < tag
        · rw [if_pos hlg] at h
          cases h
        · rw [if_neg hlg] at h
          cases h
          exact ⟨rfl, .inr ⟨tag, stop, htag, hread, not_lt.mp hlg, rfl⟩⟩
    · rw [if_neg htag] at h
      cases h
      exact ⟨rfl, .inl ⟨htag, rfl⟩⟩

theorem next_eq_found :
    p.next = (.foundTag, q) ↔ ∃ type front, p.fieldType = some (type, front) ∧ Reads type front q := by
  rw [next_iff]
  constructor
  · intro h
    cases h with
    | small byte hbyte htag hrd => exact ⟨_, _, fieldType_small hbyte htag, hrd⟩
    | large byte tag stop hbyte htag hread hsm hrd =>
      exact ⟨_, _, fieldType_large hbyte htag hread hsm, hrd⟩
  · rintro ⟨type, front, hfr, hrd⟩
    obtain ⟨byte, hbyte, rfl, ⟨htag, rfl⟩ | ⟨tag, stop, htag, hread, hsm, rfl⟩⟩ := fieldType_cases hfr
    · exact .small byte hbyte htag hrd
    · exact .large byte tag stop hbyte htag hread hsm hrd

/-- The parser in front of a value: it has not moved out of its buffer. -/
theorem fieldType_front (h : p.fieldType = some (type, front)) :
    front.data = p.data ∧ front.valueState = .valueParsed ∧ p.position ≤ front.position ∧
      front.position < p.data.length := by
  obtain ⟨byte, hbyte, -, ⟨-, rfl⟩ | ⟨tag, stop, -, hread, -, rfl⟩⟩ := fieldType_cases h
  · obtain ⟨hlt, -⟩ := List.getElem?_eq_some_iff.mp hbyte
    exact ⟨rfl, rfl, le_rfl, hlt⟩
  · have hbef := unserialize_lt hread
    have haft := unserialize_le hread
    exact ⟨rfl, rfl, show p.position ≤ stop - 1 by omega, show stop - 1 < p.data.length by omega⟩

theorem next_eq_of_found (h : p.next.1 = .foundTag) : p.next = (.foundTag, p.next.2) := Prod.ext h rfl

/-- A value that cannot be read is an error and leaves the parser in front of it. -/
theorem readValue_of_ne_found {r : ParsedType} (h : readValue type p = (r, q)) (hr : r ≠ .foundTag) :
    r = .error ∧ q = p := by
  have herr : ∀ {r' : ParsedType} {q' : MessageParser}, (r', q') = (r, q) → r' = .error → q' = p →
      r = .error ∧ q = p :=
    fun heq hr' hq' => ⟨(Prod.mk.inj heq).1.symm.trans hr', (Prod.mk.inj heq).2.symm.trans hq'⟩
  rcases lt_or_ge type 2 with htype | htype
  · rw [readValue_number_eq (by omega)] at h
    split at h
    · exact herr h rfl rfl
    · exact absurd (Prod.mk.inj h).1.symm hr
  rcases lt_or_ge type 4 with hsm | hlg
  · rw [readValue_array_eq (by omega)] at h
    split at h
    · exact herr h rfl rfl
    · rename_i v start hread
      by_cases hbad : (start + wrap v : ℤ) < 0 ∨ (p.data.length : ℤ) < start + wrap v
      · rw [if_pos hbad] at h
        exact herr h rfl rfl
      · rw [if_neg hbad] at h
        exact absurd (Prod.mk.inj h).1.symm hr
  · match type, hlg with
    | 4, _ | 5, _ | 6, _ => exact absurd (Prod.mk.inj h).1.symm hr
    | _ + 7, _ => exact herr h rfl rfl

theorem readValue_data (type : ℕ) (p : MessageParser) : (readValue type p).2.data = p.data := by
  rcases hval : readValue type p with ⟨r, q⟩
  by_cases hr : r = .foundTag
  · subst hr
    exact (readValue_iff.mp hval).data_eq
  · rw [(readValue_of_ne_found hval hr).2]

theorem data_next (p : MessageParser) : p.next.2.data = p.data := by
  unfold next
  split
  · rfl
  · dsimp only
    split
    · split
      · rfl
      · split
        · rfl
        · exact readValue_data _ _
    · exact readValue_data _ _

theorem readValue_ne_end (type : ℕ) (p : MessageParser) : (readValue type p).1 ≠ .endOfDocument := by
  rcases hval : readValue type p with ⟨r, q⟩
  by_cases hr : r = .foundTag
  · simp [hr]
  · simp [(readValue_of_ne_found hval hr).1]

theorem next_eq_end_iff : p.next.1 = .endOfDocument ↔ p.data.length ≤ p.position := by
  constructor
  · intro h
    unfold next at h
    split at h
    · rename_i hnone
      exact getElem?_eq_none_iff.mp hnone
    · dsimp only at h
      split at h
      · split at h
        · cases h
        · split at h
          · cases h
          · exact absurd h (readValue_ne_end _ _)
      · exact absurd h (readValue_ne_end _ _)
  · intro h
    rw [next, getElem?_eq_none h]

/-! ### What a call depends on -/

/-- Two parsers at one position of one buffer. -/
def SamePlace (p p' : MessageParser) : Prop := p'.data = p.data ∧ p'.position = p.position

/-- The same field was found: only what the accessors of that field do not look at may differ. -/
structure Alike (q q' : MessageParser) : Prop where
  place : SamePlace q q'
  tag : q'.tag = q.tag
  valueState : q'.valueState = q.valueState
  value : q.valueState = .valueParsed → q'.value = q.value
  range : q.valueState ≠ .valueParsed → q'.dataStart = q.dataStart ∧ q'.dataLength = q.dataLength

theorem Reads.alike (h : Reads type p q) (hpl : SamePlace p p') (htag : p'.tag = p.tag)
    (hs : p.valueState = .valueParsed) (hs' : p'.valueState = .valueParsed) :
    ∃ q', Reads type p' q' ∧ Alike q q' := by
  obtain ⟨hdata, hpos⟩ := hpl
  cases h with
  | number v stop htype hread =>
    rw [← hdata, ← hpos] at hread
    exact ⟨_, .number v stop htype hread, ⟨hdata, rfl⟩, htag, hs'.trans hs.symm, fun _ => rfl,
      fun hlazy => absurd hs hlazy⟩
  | array v start stop length htype hread hstop hlen hle =>
    rw [← hdata, ← hpos] at hread
    rw [← hdata] at hle
    have hlazy : (if type = 3 then ValueState.lazyByteArray else .lazyString) ≠ .valueParsed := by
      split_ifs <;> decide
    exact ⟨_, .array v start stop length htype hread hstop hlen hle, ⟨hdata, rfl⟩, htag, rfl,
      fun hparsed => absurd hparsed hlazy, fun _ => ⟨rfl, rfl⟩⟩
  | bool b htype =>
    refine ⟨_, .bool b htype, ⟨hdata, ?_⟩, htag, hs'.trans hs.symm, fun _ => rfl, fun hlazy =>
      absurd hs hlazy⟩
    simp only [hpos]
  | double htype =>
    refine ⟨_, .double htype, ⟨hdata, ?_⟩, htag, hs'.trans hs.symm, fun _ => ?_, fun hlazy =>
      absurd hs hlazy⟩
    · simp only [hpos]
    · simp only [hdata, hpos]

theorem fieldType_alike (hpl : SamePlace p p') (h : p.fieldType = some (type, front)) :
    ∃ front', p'.fieldType = some (type, front') ∧ SamePlace front front' ∧ front'.tag = front.tag ∧
      front'.valueState = front.valueState := by
  obtain ⟨hdata, hpos⟩ := hpl
  obtain ⟨byte, hbyte, rfl, ⟨htag, rfl⟩ | ⟨tag, stop, htag, hread, hsm, rfl⟩⟩ := fieldType_cases h
  · rw [← hdata, ← hpos] at hbyte
    exact ⟨_, fieldType_small hbyte htag, ⟨hdata, hpos⟩, rfl, rfl⟩
  · rw [← hdata, ← hpos] at hbyte hread
    exact ⟨_, fieldType_large hbyte htag hread hsm, ⟨hdata, rfl⟩, rfl, rfl⟩

theorem next_alike (hpl : SamePlace p p') (h : p.next = (.foundTag, q)) :
    ∃ q', p'.next = (.foundTag, q') ∧ Alike q q' := by
  obtain ⟨type, front, hfr, hrd⟩ := next_eq_found.mp h
  obtain ⟨front', hfr', hfrontPlace, htag, hst⟩ := fieldType_alike hpl hfr
  have hs := (fieldType_front hfr).2.1
  obtain ⟨q', hrd', halike⟩ := hrd.alike hfrontPlace htag hs (hst.trans hs)
  exact ⟨q', next_eq_found.mpr ⟨type, front', hfr', hrd'⟩, halike⟩

theorem SamePlace.symm (h : SamePlace p p') : SamePlace p' p := ⟨h.1.symm, h.2.symm⟩

theorem found_of_samePlace (hpl : SamePlace p p') (h : p.next.1 = .foundTag) :
    p'.next.1 = .foundTag := by
  obtain ⟨q', hnext, -⟩ := next_alike hpl (next_eq_of_found h)
  rw [hnext]

theorem next_fst_of_samePlace (hpl : SamePlace p p') : p'.next.1 = p.next.1 := by
  have hfd : p'.next.1 = .foundTag ↔ p.next.1 = .foundTag :=
    ⟨found_of_samePlace hpl.symm, found_of_samePlace hpl⟩
  have hend : p'.next.1 = .endOfDocument ↔ p.next.1 = .endOfDocument := by
    rw [next_eq_end_iff, next_eq_end_iff, hpl.1, hpl.2]
  generalize p'.next.1 = r' at hfd hend ⊢
  generalize p.next.1 = r at hfd hend ⊢
  cases r <;> cases r' <;> simp_all

theorem whileFound_data (body : MessageParser → σ → σ ⊕ ρ) (n : ℕ) (p : MessageParser) (s : σ) :
    (whileFound body n p s).1.data = p.data := by
  induction n generalizing p s with
  | zero => rfl
  | succ n ih =>
    have hdata := data_next p
    rw [whileFound]
    split
    · rename_i q hnext
      rw [hnext] at hdata
      split
      · exact (ih q _).trans hdata
      · exact hdata
    · rename_i hnext
      rwa [hnext] at hdata

namespace Alike

variable {q' : MessageParser} (h : Alike q q')

include h

theorem arrayLength_eq : q'.arrayLength = q.arrayLength := by
  by_cases hs : q.valueState = .valueParsed
  · rw [arrayLength, arrayLength, h.valueState, if_pos hs, if_pos hs]
  · rw [arrayLength, arrayLength, h.valueState, if_neg hs, if_neg hs, (h.range hs).2]

theorem intData_eq : q'.intData = q.intData := by
  by_cases hs : q.valueState = .valueParsed
  · rw [intData, intData, h.valueState, h.value hs]
  · rw [intData, intData, h.valueState]
    split <;> simp_all

theorem bytesDataBuffer_eq : q'.bytesDataBuffer = q.bytesDataBuffer := by
  by_cases hs : q.valueState = .valueParsed
  · simp [bytesDataBuffer, isByteArray, isString, h.valueState, hs]
  · obtain ⟨hst, hlen⟩ := h.range hs
    simp [bytesDataBuffer, isByteArray, isString, h.valueState, h.place.1, hst, hlen]

theorem uint256Data_eq : q'.uint256Data = q.uint256Data := by
  by_cases hs : q.valueState = .valueParsed
  · simp [uint256Data, h.valueState, hs]
  · obtain ⟨hst, hlen⟩ := h.range hs
    simp only [uint256Data, h.valueState, h.place.1, hst, hlen]

end Alike

/-- A loop that uses the accessors ends alike from the same place. -/
theorem Ends.of_samePlace {body : MessageParser → σ → σ ⊕ ρ} {s : σ} {x : σ ⊕ ρ}
    (hbody : ∀ q q' s, Alike q q' → body q' s = body q s) (h : Ends body p s x) (hpl : SamePlace p p') :
    Ends body p' s x := by
  induction h generalizing p' with
  | done hnext => exact .done (by rwa [next_fst_of_samePlace hpl])
  | leave hnext hlv =>
    obtain ⟨q', hnext', halike⟩ := next_alike hpl hnext
    exact .leave hnext' ((hbody _ _ _ halike).trans hlv)
  | more hnext hmore _ ih =>
    obtain ⟨q', hnext', halike⟩ := next_alike hpl hnext
    exact .more hnext' ((hbody _ _ _ halike).trans hmore) (ih halike.place)

/-- The end of what `next` has looked at; contents are left for later. -/
def readEnd (q : MessageParser) : ℤ := if q.valueState = .valueParsed then q.position else q.dataStart

/-- The call went forward and stayed inside the buffer, and so does the data it reports. -/
structure Advances (p q : MessageParser) : Prop where
  forward : p.position < q.position
  inside : q.position ≤ p.data.length
  reads : q.readEnd ≤ p.data.length
  range : q.valueState ≠ .valueParsed → 0 ≤ q.dataStart ∧ 0 ≤ q.dataLength ∧
    q.dataStart + q.dataLength ≤ p.data.length

/-- The value of this type is a double that is cut short, or an array whose end wraps. -/
def valueOverruns (type : ℕ) (p : MessageParser) : Bool :=
  match type with
  | 2 | 3 => (unserialize p.data (p.position + 1)).any fun r => 2 ^ 64 ≤ r.2 + r.1
  | 6 => p.data.length < p.position + 9
  | _ => false

/-- The next field is a double that is cut short, or an array whose end wraps. -/
def overruns (p : MessageParser) : Bool := p.fieldType.any fun r => r.2.valueOverruns r.1

theorem Reads.advances_iff (h : Reads type front q) (hdata : front.data = p.data)
    (hs : front.valueState = .valueParsed) (hfr : p.position ≤ front.position)
    (hp : front.position < p.data.length) (hlen : p.data.length < 2 ^ 31) :
    Advances p q ↔ front.valueOverruns type = false := by
  cases h with
  | number v stop htype hread =>
    have hbef := unserialize_lt hread
    have haft := unserialize_le hread
    rw [hdata] at haft
    have hover : front.valueOverruns type = false := by rcases htype with rfl | rfl <;> rfl
    refine iff_of_true ⟨show p.position < stop by omega, haft, ?_, fun hlazy => absurd hs hlazy⟩ hover
    simp only [readEnd, hs, if_true]
    exact_mod_cast haft
  | array v start stop length htype hread hstop hlength hle =>
    have hbef := unserialize_lt hread
    have haft := unserialize_le hread
    have hval := unserialize_value_lt hread
    rw [hdata] at haft hle
    obtain ⟨hneg, hsum⟩ := toInt32_length_neg hval (by omega) (by omega) hstop
    rw [hlength] at hneg hsum
    have hover : front.valueOverruns type = decide (2 ^ 64 ≤ start + v) := by
      rcases htype with rfl | rfl <;> simp only [valueOverruns, hread, any_some]
    have hlazy : (if type = 3 then ValueState.lazyByteArray else .lazyString) ≠ .valueParsed := by
      split_ifs <;> decide
    rw [hover, decide_eq_false_iff_not, ← hneg, not_lt]
    constructor
    · intro hadv
      exact (hadv.range hlazy).2.1
    · intro hpos
      refine ⟨show p.position < stop
        by omega, hle, ?_, fun _ => ⟨show (0 : ℤ) ≤ start by omega, hpos, ?_⟩⟩
      · simp only [readEnd, hlazy, if_false]
        exact_mod_cast haft
      · show (start + length : ℤ) ≤ p.data.length
        omega
  | bool b htype =>
    have hover : front.valueOverruns type = false := by
      subst htype
      cases b <;> rfl
    refine iff_of_true ⟨lt_succ_of_le hfr, hp, ?_, fun hlazy => absurd hs hlazy⟩ hover
    simp only [readEnd, hs, if_true]
    exact_mod_cast hp
  | double htype =>
    subst htype
    simp only [valueOverruns, decide_eq_false_iff_not, not_lt, hdata]
    constructor
    · exact fun hadv => hadv.inside
    · intro hend
      refine ⟨show p.position < front.position + 9 by omega, hend, ?_, fun hlazy => absurd hs hlazy⟩
      simp only [readEnd, hs, if_true]
      exact_mod_cast hend

theorem bytesDataBuffer_of_lazy (h : q.valueState ≠ .valueParsed) :
    q.bytesDataBuffer = (q.data.drop q.dataStart.toNat).take q.dataLength.toNat := by
  rw [bytesDataBuffer, isByteArray, isString]
  cases hs : q.valueState with
  | valueParsed => exact absurd hs h
  | lazyByteArray | lazyString => rfl

/-- A string or byte array of positive length lies inside the buffer. -/
theorem Reads.length_bytesDataBuffer (h : Reads type p q) (hs : p.valueState = .valueParsed)
    (hlen : p.data.length < 2 ^ 31) (hsize : q.arrayLength = size) (hpos : 0 < size) :
    q.bytesDataBuffer.length = size := by
  cases h with
  | number | bool | double =>
    simp only [arrayLength, hs, if_true] at hsize
    omega
  | array v start stop length htype hread hstop hlength hle =>
    have haft := unserialize_le hread
    obtain ⟨-, hsum⟩ := toInt32_length_neg (unserialize_value_lt hread) (by omega) (by omega) hstop
    have hlazy : (if type = 3 then ValueState.lazyByteArray else .lazyString) ≠ .valueParsed := by
      split_ifs <;> decide
    simp only [arrayLength, hlazy, if_false] at hsize
    rw [bytesDataBuffer_of_lazy hlazy]
    simp only [length_take, length_drop, Int.toNat_natCast]
    omega

theorem length_bytesDataBuffer (h : p.next = (.foundTag, q)) (hlen : p.data.length < 2 ^ 31)
    (hsize : q.arrayLength = size) (hpos : 0 < size) : q.bytesDataBuffer.length = size := by
  obtain ⟨type, front, hfr, hrd⟩ := next_eq_found.mp h
  obtain ⟨hdata, hs, -⟩ := fieldType_front hfr
  exact hrd.length_bytesDataBuffer hs (hdata ▸ hlen) hsize hpos

theorem exists_reads_of_valueOverruns (hlen : p.data.length < 2 ^ 31) (h : p.valueOverruns type) :
    ∃ q, Reads type p q := by
  have harr : (unserialize p.data (p.position + 1)).any (fun r => 2 ^ 64 ≤ r.2 + r.1) →
      type = 2 ∨ type = 3 → ∃ q, Reads type p q := by
    intro hany htype
    obtain ⟨⟨v, start⟩, hread, hwraps⟩ := (any_eq_true _ _).mp hany
    have haft := unserialize_le hread
    have hval := unserialize_value_lt hread
    have hwrap : (start + wrap v : ℤ) = (start + v - 2 ^ 64 : ℕ) := by
      have hwraps : 2 ^ 64 ≤ start + v := of_decide_eq_true hwraps
      obtain ⟨k, hk⟩ := wrap_eq_sub_mul (v : ℤ)
      have hfits := fits_wrap (v : ℤ)
      obtain ⟨hlo, hhi⟩ := hfits
      omega
    exact ⟨_, .array v start _ _ htype hread hwrap rfl (by omega)⟩
  unfold valueOverruns at h
  split at h
  · exact harr h (.inl rfl)
  · exact harr h (.inr rfl)
  · exact ⟨_, .double rfl⟩
  · cases h

theorem next_advances_iff (hlen : p.data.length < 2 ^ 31) :
    (∀ q, p.next = (.foundTag, q) → Advances p q) ↔ p.overruns = false := by
  constructor
  · intro h
    rw [overruns, Option.any_eq_false]
    rintro ⟨type, front⟩ hfr
    obtain ⟨hdata, hs, hle, hlt⟩ := fieldType_front hfr
    by_contra hover
    obtain ⟨q, hrd⟩ := exists_reads_of_valueOverruns (hdata ▸ hlen) (Bool.eq_true_of_not_eq_false hover)
    have hadv := h q (next_eq_found.mpr ⟨type, front, hfr, hrd⟩)
    exact hover ((hrd.advances_iff hdata hs hle hlt hlen).mp hadv)
  · intro hover q hnext
    obtain ⟨type, front, hfr, hrd⟩ := next_eq_found.mp hnext
    obtain ⟨hdata, hs, hle, hlt⟩ := fieldType_front hfr
    rw [overruns, Option.any_eq_false] at hover
    exact (hrd.advances_iff hdata hs hle hlt hlen).mpr (hover _ hfr)

def after (buffer : Bytes) : ℕ → MessageParser
  | 0 => ofBuffer buffer
  | k + 1 => (after buffer k).next.2

theorem data_after (buf : Bytes) (k : ℕ) : (after buf k).data = buf := by
  induction k with
  | zero => rfl
  | succ k ih => rw [after, data_next, ih]

theorem add_le_position_after {buf : Bytes} {j k : ℕ}
    (hadv : ∀ i q, (after buf i).next = (.foundTag, q) → Advances (after buf i) q)
    (hfd : ∀ i < k, (after buf (j + i)).next.1 = .foundTag) :
    (after buf j).position + k ≤ (after buf (j + k)).position := by
  induction k with
  | zero => exact le_rfl
  | succ k ih =>
    have hbef := ih fun i hi => hfd i (lt_succ_of_lt hi)
    have hforward := (hadv (j + k) _ (next_eq_of_found (hfd k k.lt_succ_self))).forward
    have hstep : (after buf (j + (k + 1))).position = (after buf (j + k)).next.2.position := rfl
    omega

/-- The parser makes progress and every loop ends exactly when no field overruns. -/
theorem next_advances_always_iff {buf : Bytes} (hlen : buf.length < 2 ^ 31) :
    ((∀ k q, (after buf k).next = (.foundTag, q) → Advances (after buf k) q) ∧
      ∀ j, ∃ k ≤ buf.length, (after buf (j + k)).next.1 ≠ .foundTag) ↔
      ∀ k, (after buf k).overruns = false := by
  have hone : ∀ k, (∀ q, (after buf k).next = (.foundTag, q) → Advances (after buf k) q) ↔
      (after buf k).overruns = false := fun k => next_advances_iff (by rw [data_after]; exact hlen)
  constructor
  · rintro ⟨hadv, -⟩ k
    exact (hone k).mp (hadv k)
  · intro hover
    have hadv : ∀ k q, (after buf k).next = (.foundTag, q) → Advances (after buf k) q :=
      fun k => (hone k).mpr (hover k)
    refine ⟨hadv, fun j => ?_⟩
    by_contra hall
    push Not at hall
    have hfd : ∀ i < buf.length + 1, (after buf (j + i)).next.1 = .foundTag :=
      fun i hi => hall i (le_of_lt_succ hi)
    have hpos := add_le_position_after hadv hfd
    have hin := (hadv (j + buf.length) _ (next_eq_of_found (hfd _ (lt_succ_self _)))).inside
    rw [data_after] at hin
    have hstep : (after buf (j + (buf.length + 1))).position =
      (after buf (j + buf.length)).next.2.position := rfl
    omega

/-- A number, a byte array of two bytes, a double and a flag. -/
def fourFields : Bytes := [0x08, 5, 0x13, 2, 0xAA, 0xBB, 0x1E, 0, 0, 0, 0, 0, 0, 0xF0, 0x3F, 0x24]

theorem next_advances_always_four :
    (∀ k q, (after fourFields k).next = (.foundTag, q) → Advances (after fourFields k) q) ∧
      ∀ j, ∃ k ≤ 16, (after fourFields (j + k)).next.1 ≠ .foundTag := by
  refine (next_advances_always_iff (by decide)).mpr fun k => ?_
  have hend : ∀ k, after fourFields (k + 4) = after fourFields 4 := by
    intro k
    induction k with
    | zero => rfl
    | succ k ih => rw [after, ih]; decide +kernel
  rcases k with _ | _ | _ | _ | k
  · decide
  · decide
  · decide
  · decide
  · rw [hend]
    decide

/-- A length of eleven below `2^64` leads back to its start, and a double is read over the end. -/
theorem never_ends_on_wrapping_length :
    (∀ k, (after [11, 128, 254, 254, 254, 254, 254, 254, 254, 254, 117] k).next.1 = .foundTag ∧
      (after [11, 128, 254, 254, 254, 254, 254, 254, 254, 254, 117] k).position = 0) ∧
      (after [0x0E] 0).next.1 = .foundTag ∧ (after [0x0E] 1).position = 9 ∧
        (after [0x0E] 1).readEnd = 9 := by
  refine ⟨fun k => ?_, by decide⟩
  have hback : ∀ k, after [11, 128, 254, 254, 254, 254, 254, 254, 254, 254, 117] (k + 1) =
      (ofBuffer [11, 128, 254, 254, 254, 254, 254, 254, 254, 254, 117]).next.2 := by
    intro k
    induction k with
    | zero => rfl
    | succ k ih => rw [after, ih]; decide
  cases k with
  | zero => decide
  | succ k => rw [hback]; decide

end MessageParser

end FloweeHub.Streaming
