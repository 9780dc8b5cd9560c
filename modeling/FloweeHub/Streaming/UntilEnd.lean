import FloweeHub.Streaming.Progress

/-! The loops that call `next` until the end of the document. They go on after an error. A field with
a short tag that is refused leaves the parser at its first byte, where the next call refuses it again;
an array whose end wraps around may take the parser back. Every other field takes it forward, also one
that is refused behind a long tag. -/

namespace FloweeHub.Streaming

open Lib Wrap64

namespace MessageParser

variable {p p' : MessageParser} {σ : Type} {n type : ℕ}

/-! ### Where a call leaves the parser -/

/-- A value of this type is cut off, is longer than the buffer, or has a type that does not exist. -/
def valueRefused (type : ℕ) (p : MessageParser) : Bool :=
  match type with
  | 0 | 1 => (unserialize p.data (p.position + 1)).isNone
  | 2 | 3 => (unserialize p.data (p.position + 1)).all fun r =>
      (r.2 + wrap r.1 : ℤ) < 0 ∨ (p.data.length : ℤ) < r.2 + wrap r.1
  | 4 | 5 | 6 => false
  | _ => true

/-- The bytes here are a field that is refused at its first byte: the long tag is cut off, or the value
behind a short one is refused. -/
def standsStill (p : MessageParser) : Bool :=
  p.data[p.position]?.any fun byte =>
    if byte.toNat / 8 = 31 then (unserialize p.data (p.position + 1)).isNone
    else p.valueRefused (byte.toNat % 8)

/-- The bytes here are an array that ends at or before its first byte, as its length wraps around. -/
def stepsBack (p : MessageParser) : Bool :=
  p.fieldType.any fun f => (f.1 = 2 ∨ f.1 = 3) &&
    (unserialize p.data (f.2.position + 1)).any fun r => 0 ≤ (r.2 + wrap r.1 : ℤ) ∧
      (r.2 + wrap r.1 : ℤ) ≤ p.position

theorem readValue_eq_error_iff : (readValue type p).1 = .error ↔ p.valueRefused type := by
  rcases lt_or_ge type 2 with htype | htype
  · replace htype : type = 0 ∨ type = 1 := by omega
    have hrefused : p.valueRefused type = (unserialize p.data (p.position + 1)).isNone := by
      rcases htype with rfl | rfl <;> rfl
    rw [readValue_number_eq htype, hrefused]
    cases unserialize p.data (p.position + 1) <;> simp
  rcases lt_or_ge type 4 with hsm | hlg
  · replace htype : type = 2 ∨ type = 3 := by omega
    have hrefused : p.valueRefused type = (unserialize p.data (p.position + 1)).all fun r =>
        (r.2 + wrap r.1 : ℤ) < 0 ∨ (p.data.length : ℤ) < r.2 + wrap r.1 := by
      rcases htype with rfl | rfl <;> rfl
    rw [readValue_array_eq htype, hrefused]
    cases unserialize p.data (p.position + 1) with
    | none => simp
    | some r =>
      dsimp only
      rw [Option.all_some]
      split_ifs with hbad
      · simpa using hbad
      · simpa using hbad
  · match type, hlg with
    | 4, _ | 5, _ | 6, _ => exact iff_of_false nofun nofun
    | _ + 7, _ => exact iff_of_true rfl rfl

theorem readValue_of_refused (h : p.valueRefused type) : readValue type p = (.error, p) := by
  have herr := readValue_eq_error_iff.mpr h
  rcases hval : readValue type p with ⟨r, q⟩
  rw [hval] at herr
  obtain ⟨hr, hq⟩ := readValue_of_ne_found hval (by rw [show r = .error from herr]; decide)
  rw [hr, hq]

theorem tag_readValue (type : ℕ) (p : MessageParser) : (readValue type p).2.tag = p.tag := by
  rcases hval : readValue type p with ⟨r, q⟩
  by_cases hr : r = .foundTag
  · subst hr
    cases readValue_iff.mp hval <;> rfl
  · rw [(readValue_of_ne_found hval hr).2]

/-- A field that is refused at its first byte leaves the parser there. -/
theorem next_of_standsStill (h : p.standsStill) :
    p.next.1 = .error ∧ p.next.2.position = p.position := by
  obtain ⟨byte, hbyte, h⟩ := (Option.any_eq_true _ _).mp h
  rw [next, hbyte]
  dsimp only
  by_cases htag : byte.toNat / 8 = 31
  · rw [if_pos htag] at h ⊢
    rw [Option.isNone_iff_eq_none.mp h]
    exact ⟨rfl, rfl⟩
  · rw [if_neg htag] at h ⊢
    rw [readValue_of_refused]
    · exact ⟨rfl, rfl⟩
    · exact h

/-- A value that is read ends behind `position`, unless it is an array that wraps to there. -/
theorem Reads.lt_position {front q : MessageParser} (h : Reads type front q) {position : ℕ}
    (hle : position ≤ front.position)
    (hback : (type = 2 ∨ type = 3) → ∀ r, unserialize front.data (front.position + 1) = some r →
      ¬ (0 ≤ (r.2 + wrap r.1 : ℤ) ∧ (r.2 + wrap r.1 : ℤ) ≤ position)) : position < q.position := by
  cases h with
  | number value stop htype hread =>
    have := unserialize_lt hread
    show position < stop
    omega
  | array value start stop length htype hread hstop hlength hend =>
    have hnot := hback htype _ hread
    show position < stop
    dsimp only at hnot
    omega
  | bool b htype =>
    show position < front.position + 1
    omega
  | double htype =>
    show position < front.position + 9
    omega

theorem position_lt_readValue {front : MessageParser} (hfront : p.fieldType = some (type, front))
    (hback : p.stepsBack = false) (hor : p.position < front.position ∨ front.valueRefused type = false) :
    p.position < (readValue type front).2.position := by
  obtain ⟨hdata, -, hle, -⟩ := fieldType_front hfront
  by_cases href : front.valueRefused type
  · rw [readValue_of_refused href]
    exact hor.resolve_right (by simp [href])
  · rcases hval : readValue type front with ⟨r, q⟩
    have hr : r = .foundTag := by
      by_contra hne
      obtain ⟨rfl, -⟩ := readValue_of_ne_found hval hne
      exact href (readValue_eq_error_iff.mp (congrArg Prod.fst hval))
    subst hr
    refine (readValue_iff.mp hval).lt_position hle fun htype r hr hwraps => ?_
    rw [hdata] at hr
    rw [stepsBack, hfront, Option.any_some, hr, Option.any_some, Bool.and_eq_false_iff] at hback
    rcases hback with hnot | hnot
    · exact absurd htype (of_decide_eq_false hnot)
    · exact absurd hwraps (of_decide_eq_false hnot)

/-- Every other field takes the parser forward. -/
theorem position_lt_next (hp : p.position < p.data.length) (hstands : p.standsStill = false)
    (hback : p.stepsBack = false) : p.position < p.next.2.position := by
  have hbyte := List.getElem?_eq_getElem hp
  generalize p.data[p.position] = byte at hbyte
  rw [next, hbyte]
  dsimp only
  rw [standsStill, hbyte, Option.any_some] at hstands
  by_cases htag : byte.toNat / 8 = 31
  · rw [if_pos htag] at hstands ⊢
    cases hread : unserialize p.data (p.position + 1) with
    | none => simp [hread] at hstands
    | some r =>
      obtain ⟨tag, stop⟩ := r
      have hlt := unserialize_lt hread
      have hmoved : p.position < stop - 1 := by omega
      dsimp only
      by_cases hlarge : 0xFFFFFFFF < tag
      · rw [if_pos hlarge]
        exact hmoved
      · rw [if_neg hlarge]
        exact position_lt_readValue (fieldType_large hbyte htag hread (not_lt.mp hlarge)) hback
          (.inl hmoved)
  · rw [if_neg htag] at hstands ⊢
    exact position_lt_readValue (fieldType_small hbyte htag) hback (.inr hstands)

theorem position_next_of_stepsBack (h : p.stepsBack) : p.next.2.position ≤ p.position := by
  obtain ⟨⟨type, front⟩, hfront, h⟩ := (Option.any_eq_true _ _).mp h
  obtain ⟨htype, h⟩ := Bool.and_eq_true_iff.mp h
  obtain ⟨r, hread, h⟩ := (Option.any_eq_true _ _).mp h
  obtain ⟨hpos, hle⟩ := of_decide_eq_true h
  obtain ⟨hdata, -, hfr, hlt⟩ := fieldType_front hfront
  obtain ⟨stop, hstop⟩ := Int.eq_ofNat_of_zero_le hpos
  have hle : stop ≤ p.position := by omega
  rw [← hdata] at hread
  have hreads := Reads.array (p := front) r.1 r.2 stop _ (of_decide_eq_true htype) hread hstop rfl
    (by rw [hdata]; omega)
  rw [next_eq_found.mpr ⟨type, front, hfront, hreads⟩]
  exact hle

/-! ### The loops -/

/-- At most `n` rounds; the body sees the parser after every call, and `none` is a failed assertion.
-/
def untilEnd (body : MessageParser → σ → Option σ) : ℕ → MessageParser → σ → Option (Option σ)
  | 0, _, _ => none
  | n + 1, p, s =>
    if p.next.1 = .endOfDocument then some (some s)
    else
      match body p.next.2 s with
      | none => some none
      | some s => untilEnd body n p.next.2 s

/-- The two parsers stand at the same place, behind the same kind of field. -/
def Twin (p p' : MessageParser) : Prop := SamePlace p p' ∧ p'.tag = p.tag ∧ p'.valueState = p.valueState

theorem readValue_twin (type : ℕ) (h : Twin p p') : Twin (readValue type p).2 (readValue type p').2 := by
  cases p
  cases p'
  obtain ⟨⟨hdata, hpos⟩, htag, hst⟩ := h
  subst hdata hpos htag hst
  unfold readValue
  dsimp only
  split
  iterate 2
    · split <;> exact ⟨⟨rfl, rfl⟩, rfl, rfl⟩
  iterate 2
    · split
      · exact ⟨⟨rfl, rfl⟩, rfl, rfl⟩
      · split <;> exact ⟨⟨rfl, rfl⟩, rfl, rfl⟩
  all_goals exact ⟨⟨rfl, rfl⟩, rfl, rfl⟩

theorem next_twin (hpl : SamePlace p p') (hp : p.position < p.data.length) :
    Twin p.next.2 p'.next.2 := by
  cases p
  cases p'
  obtain ⟨hdata, hpos⟩ := hpl
  subst hdata hpos
  unfold next
  rw [List.getElem?_eq_getElem hp]
  dsimp only
  split_ifs
  · split
    · exact ⟨⟨rfl, rfl⟩, rfl, rfl⟩
    · split
      · exact ⟨⟨rfl, rfl⟩, rfl, rfl⟩
      · exact readValue_twin _ ⟨⟨rfl, rfl⟩, rfl, rfl⟩
  · exact readValue_twin _ ⟨⟨rfl, rfl⟩, rfl, rfl⟩

section Rounds

variable {buf : Bytes} {body : MessageParser → σ → Option σ} {leaves : MessageParser → Prop} {j k : ℕ}

/-- In this round of the loop no field is left, or the body fails on what the call gave. -/
def Over (leaves : MessageParser → Prop) (buffer : Bytes) (k : ℕ) : Prop :=
  buffer.length ≤ (after buffer k).position ∨ leaves (after buffer (k + 1))

theorem untilEnd_eq_none (hbody : ∀ q s, body q s = none ↔ leaves q) (s : σ) :
    untilEnd body n (after buf j) s = none ↔ ∀ k < n, ¬ Over leaves buf (j + k) := by
  induction n generalizing j s with
  | zero => simp [untilEnd]
  | succ n ih =>
    have hspl : (∀ k < n + 1, ¬ Over leaves buf (j + k)) ↔
        ¬ Over leaves buf j ∧ ∀ k < n, ¬ Over leaves buf (j + 1 + k) := by
      rw [Nat.forall_lt_succ_left]
      simp only [Nat.add_zero, Nat.add_comm, Nat.add_left_comm]
    have hend : (after buf j).next.1 = .endOfDocument ↔ buf.length ≤ (after buf j).position := by
      rw [next_eq_end_iff, data_after]
    rw [hspl, untilEnd, Over, not_or]
    by_cases hover : buf.length ≤ (after buf j).position
    · simp [hend.mpr hover, hover]
    · rw [if_neg (mt hend.mp hover), show (after buf j).next.2 = after buf (j + 1) from rfl]
      cases hs : body (after buf (j + 1)) s with
      | none => simp [(hbody _ _).mp hs]
      | some s' =>
        have hsty : ¬ leaves (after buf (j + 1)) := fun h => by simp [(hbody _ s).mpr h] at hs
        simp [ih, hover, hsty]

/-- As long as the loop is not over, no call takes the parser to a place where it has been. -/
def Fresh (leaves : MessageParser → Prop) (buffer : Bytes) : Prop :=
  ∀ i j, i < j → (∀ k < j, ¬ Over leaves buffer k) →
    (after buffer j).position ≠ (after buffer i).position

/-- A place that is come to twice is come to again and again, with the same fields in between. -/
theorem fresh_of_over (hlvs : ∀ q q', Twin q q' → leaves q' → leaves q) (h : Over leaves buf k) :
    Fresh leaves buf := by
  classical
  intro i j hij hgoes heq
  have hover : ∃ k, Over leaves buf k := ⟨k, h⟩
  have hbef : ∀ m < Nat.find hover, ¬ Over leaves buf m := fun m => Nat.find_min hover
  obtain ⟨d, hd⟩ := Nat.exists_eq_add_of_le (not_lt.mp fun hlt => hgoes _ hlt (Nat.find_spec hover))
  have hin : ∀ m < Nat.find hover, (after buf m).position < (after buf m).data.length := by
    intro m hm
    rw [data_after]
    exact not_le.mp fun hle => hbef m hm (.inl hle)
  have hsame : ∀ m ≤ d, SamePlace (after buf (i + m)) (after buf (j + m)) := by
    intro m hm
    induction m with
    | zero => exact ⟨by rw [data_after, data_after], heq⟩
    | succ m ih => exact (next_twin (ih (by omega)) (hin _ (by omega))).1
  apply hbef (i + d) (by omega)
  have hlast := Nat.find_spec hover
  rw [hd] at hlast
  rcases hlast with hend | hfls
  · exact .inl ((hsame d le_rfl).2 ▸ hend)
  · exact .inr (hlvs _ _ (next_twin (hsame d le_rfl) (hin _ (by omega))) hfls)

/-- Each round that does not end the loop is one in which the bytes at the parser's place satisfy `P`.
-/
def EachRound (leaves P : MessageParser → Prop) (buffer : Bytes) : Prop :=
  ∀ k, (∀ j ≤ k, ¬ Over leaves buffer j) → P (after buffer k)

/-- A loop in which every round that does not end it goes forward has one round for every byte. -/
theorem ends_of_forward {goes : ℕ → Prop} (hin : ∀ k, goes k → (after buf k).position < buf.length)
    (hforward : ∀ k, (∀ j ≤ k, goes j) → (after buf k).position < (after buf (k + 1)).position) :
    ∃ k < buf.length + 1, ¬ goes k := by
  by_contra! hgoes
  have hpos : ∀ k ≤ buf.length, k ≤ (after buf k).position := by
    intro k hk
    induction k with
    | zero => exact Nat.zero_le _
    | succ k ih => exact Nat.lt_of_le_of_lt (ih (by omega)) (hforward k fun j hj => hgoes j (by omega))
  have := hin _ (hgoes buf.length (Nat.lt_succ_self _))
  have := hpos _ le_rfl
  omega

theorem over_of_forward
    (h : EachRound leaves (fun p => p.standsStill = false ∧ p.stepsBack = false) buf) :
    ∃ k < buf.length + 1, Over leaves buf k := by
  have hin : ∀ k, ¬ Over leaves buf k → (after buf k).position < buf.length := fun k hk =>
    not_le.mp fun hle => hk (.inl hle)
  obtain ⟨k, hk, hover⟩ := ends_of_forward hin fun k hgoes => by
    obtain ⟨hstands, hback⟩ := h k hgoes
    exact position_lt_next (by rw [data_after]; exact hin k (hgoes k le_rfl)) hstands hback
  exact ⟨k, hk, not_not.mp hover⟩

/-- A loop that is over stood still nowhere before. -/
theorem eachRound_of_over (hlvs : ∀ q q', Twin q q' → leaves q' → leaves q) (h : Over leaves buf k) :
    EachRound leaves (fun p => p.standsStill = false) buf := by
  intro j hgoes
  by_contra hstands
  refine fresh_of_over hlvs h j (j + 1) (Nat.lt_succ_self j) (fun i hi => hgoes i (by omega)) ?_
  exact (next_of_standsStill (Bool.eq_true_of_not_eq_false hstands)).2

theorem untilEnd_ends_iff (hbody : ∀ q s, body q s = none ↔ leaves q)
    (hlvs : ∀ q q', Twin q q' → leaves q' → leaves q) (s : σ) :
    (EachRound leaves (fun p => p.stepsBack = false) buf →
      ((∃ r, untilEnd body (buf.length + 1) (ofBuffer buf) s = some r) ↔
        EachRound leaves (fun p => p.standsStill = false) buf)) ∧
    (¬ EachRound leaves (fun p => p.standsStill = false) buf →
      ∀ n, untilEnd body n (ofBuffer buf) s = none) := by
  have hends : ∀ n, (∃ r, untilEnd body n (ofBuffer buf) s = some r) → ∃ k < n, Over leaves buf k := by
    rintro n ⟨r, hr⟩
    by_contra! hgoes
    have hnone : untilEnd body n (after buf 0) s = none :=
      (untilEnd_eq_none hbody s).mpr fun k hk => by rw [Nat.zero_add]; exact hgoes k hk
    rw [after, hr] at hnone
    cases hnone
  refine ⟨fun hback => ⟨fun h => ?_, fun hstands => ?_⟩, fun hnot n => ?_⟩
  · obtain ⟨k, -, hover⟩ := hends _ h
    exact eachRound_of_over hlvs hover
  · obtain ⟨k, hk, hover⟩ := over_of_forward fun k hgoes => ⟨hstands k hgoes, hback k hgoes⟩
    rw [← Option.ne_none_iff_exists', ne_eq, ← after, untilEnd_eq_none hbody]
    exact fun hgoes => hgoes k hk (by rwa [Nat.zero_add])
  · refine Option.eq_none_iff_forall_ne_some.mpr fun r hr => ?_
    obtain ⟨k, -, hover⟩ := hends n ⟨r, hr⟩
    exact hnot (eachRound_of_over hlvs hover)

end Rounds

end MessageParser

open MessageParser

/-- The fields of the meta data of a block. -/
structure BlockMetaData where
  blockId : Uint256 := 0
  blockHeight : ℤ := 0
  ctorSorted : Bool := false
  transactions : Bytes := []

variable (parser : MessageParser)

/-- The body of the loop in the constructor. -/
def BlockMetaData.readField (data : BlockMetaData) : Option BlockMetaData :=
  match parser.tag with
  | 0 => some { data with blockId := parser.uint256Data }
  | 1 => some { data with blockHeight := parser.intData }
  | 2 => some { data with ctorSorted := parser.boolData }
  | 3 => if parser.isByteArray then some { data with transactions := parser.bytesDataBuffer } else none
  | _ => some data

/-- The field is the blob of transactions, and it is no byte array. -/
def BlockMetaData.Asserts : Prop := parser.tag = 3 ∧ ¬ parser.isByteArray

/-- The body of the loop in `buildReply`, on the tag `GenericByteData`. -/
def SubmitBlock.readField (block : Bytes) : Option Bytes :=
  if parser.tag = 1 then some parser.bytesDataBuffer else some block

end FloweeHub.Streaming
