import Mathlib.Data.Nat.Count
import FloweeHub.Streaming.Message

/-! Messages as lists of fields. Every kind of field is read back by one call of `next`, so a loop
over a message follows the list of its fields. -/

namespace FloweeHub.Streaming

open MessageBuilder List Nat

/-- The least number that takes more than `k + 1` bytes. -/
def groupLimit : ℕ → ℕ
  | 0 => 128
  | k + 1 => 128 * (groupLimit k + 1)

/-- The bytes of a number behind its first one. -/
def extraBytes (v : ℕ) : ℕ := count (groupLimit · ≤ v) 9

theorem le_groupLimit (k : ℕ) : 128 ≤ groupLimit k := by
  cases k with
  | zero => rfl
  | succ k => rw [groupLimit]; omega

theorem length_serializeGroups (n : ℕ) (more : Bool) (v : ℕ) :
    (serializeGroups (n + 1) more v).length = 1 + count (groupLimit · ≤ v) n := by
  induction n generalizing more v with
  | zero =>
    simp only [serializeGroups]
    split_ifs <;> rfl
  | succ n ih =>
    by_cases hle : v ≤ 0x7F
    · have hno : ∀ k < n + 1, ¬ groupLimit k ≤ v := fun k _ => by have := le_groupLimit k; omega
      rw [serializeGroups_of_le more hle, count_of_forall_not hno, length_singleton]
    · have hstep (k : ℕ) : groupLimit k ≤ v / 128 - 1 ↔ groupLimit (k + 1) ≤ v := by
        rw [groupLimit]; omega
      simp only [serializeGroups_of_gt more hle, length_append, ih, count_succ', hstep]
      rw [if_pos (show groupLimit 0 ≤ v from not_le.mp hle), length_singleton]
      omega

theorem length_serialize (v : ℕ) : (serialize v).length = 1 + extraBytes v :=
  length_serializeGroups 9 false v

theorem length_serialize_pos (v : ℕ) : 0 < (serialize v).length := by rw [length_serialize]; omega

theorem length_writeTag {tag : ℕ} (h : tag < 31) (type : ValueType) :
    (writeTag tag type).length = 1 := by
  rw [writeTag, if_neg (by omega), length_singleton]

/-- A field of a message. -/
inductive Field
  | int (tag : ℕ) (value : ℤ)
  | long (tag value : ℕ)
  | bytes (tag : ℕ) (data : Bytes)
  | bool (tag : ℕ) (value : Bool)

namespace Field

def write : Field → Bytes
  | int tag value => addInt tag value
  | long tag value => addLong tag value
  | bytes tag data => addByteArray tag data
  | bool tag value => addBool tag value

def tag : Field → ℕ
  | int tag _ => tag
  | long tag _ => tag
  | bytes tag _ => tag
  | bool tag _ => tag

/-- The value fits its type. -/
def Fits : Field → Prop
  | int _ value => -2 ^ 31 ≤ value ∧ value < 2 ^ 31
  | long _ value => value < 2 ^ 64
  | bytes _ data => data.length < 2 ^ 31
  | bool _ _ => True

/-- What the parser says of the field it has just read. -/
def ReadAs (q : MessageParser) : Field → Prop
  | int tag value => q.tag = tag ∧ q.intData = value
  | long tag value => q.tag = tag ∧ q.longData = value
  | bytes tag data => q.tag = tag ∧ q.arrayLength = data.length ∧ q.bytesData = data ∧
      (data.length = 32 → q.uint256Data = Uint256.ofBytes data)
  | bool tag value => q.tag = tag ∧ q.boolData = value

/-- Every tag of the messages treated here fits in the first byte. -/
structure Short (f : Field) : Prop where
  fits : f.Fits
  tag_lt : f.tag < 31

namespace Short

variable {tag : ℕ}

theorem int {v : ℤ} (ht : tag < 31) (hlo : -2 ^ 31 ≤ v) (hhi : v < 2 ^ 31) :
    (Field.int tag v).Short := ⟨⟨hlo, hhi⟩, ht⟩

theorem long {v : ℕ} (ht : tag < 31) (hv : v < 2 ^ 64) : (Field.long tag v).Short := ⟨hv, ht⟩

theorem bytes {data : Bytes} (ht : tag < 31) (hdata : data.length < 2 ^ 31) :
    (Field.bytes tag data).Short :=
  ⟨hdata, ht⟩

theorem bool {v : Bool} (ht : tag < 31) : (Field.bool tag v).Short := ⟨trivial, ht⟩

end Short

/-- The bytes of the field when its tag fits in the first one. -/
def cost : Field → ℕ
  | int _ value => 2 + extraBytes value.natAbs
  | long _ value => 2 + extraBytes value
  | bytes _ data => 2 + extraBytes data.length + data.length
  | bool _ _ => 1

theorem length_write (f : Field) (ht : f.tag < 31) : f.write.length = f.cost := by
  cases f with
  | int | long | bytes =>
    simp only [write, addInt, addLong, addByteArray, length_append, length_serialize, cost]
    rw [length_writeTag (by exact ht)]
    omega
  | bool => exact length_writeTag ht _

theorem length_flatMap_write {fields : List Field} (ht : ∀ f ∈ fields, f.tag < 31) :
    (fields.flatMap write).length = (fields.map cost).sum := by
  rw [length_flatMap, map_congr_left fun f hf => length_write f (ht f hf)]

theorem length_write_pos (f : Field) : 0 < f.write.length := by
  cases f with
  | int tag v => rw [write, addInt, length_append]; exact Nat.add_pos_right _ (length_serialize_pos _)
  | long tag v => rw [write, addLong, length_append]; exact Nat.add_pos_right _ (length_serialize_pos _)
  | bytes tag data =>
    rw [write, addByteArray, length_append, length_append]
    have := length_serialize_pos data.length
    omega
  | bool tag v => exact MessageParser.length_writeTag_pos ..

end Field

namespace MessageParser

variable {p : MessageParser} {rest : Bytes}

theorem next_field {f : Field} (hf : f.Short) (h : p.data.drop p.position = f.write ++ rest) :
    ∃ q, p.Passes f.write rest f.tag q ∧ f.ReadAs q := by
  have htag := hf.tag_lt
  cases f with
  | int tag v =>
    obtain ⟨q, hpass, hq⟩ := next_addInt (htag.trans (by decide)) hf.fits.1 hf.fits.2 h
    exact ⟨q, hpass, hpass.tag, hq⟩
  | long tag v =>
    obtain ⟨q, hpass, -, hq⟩ := next_number (htag.trans (by decide)) (.inl rfl) hf.fits h
    exact ⟨q, hpass, hpass.tag, longData_of_number hq hf.fits⟩
  | bytes tag data =>
    obtain ⟨q, hpass, hlen, hbs, hhash, -⟩ := next_addByteArray (htag.trans (by decide)) hf.fits h
    exact ⟨q, hpass, hpass.tag, hlen, hbs, hhash⟩
  | bool tag v =>
    obtain ⟨q, hpass, hs, hq⟩ := next_bool (htag.trans (by decide)) h
    exact ⟨q, hpass, hpass.tag, boolData_of_value hs hq⟩

section Loop

variable {σ ρ : Type} {body : MessageParser → σ → σ ⊕ ρ} {s : σ} {r : ρ} {fields : List Field} {t : σ}
  {x : σ ⊕ ρ} {n : ℕ} {q : MessageParser}

/-- The loop `while (parser.next() == FoundTag)`; the body goes on or leaves it. -/
def whileFound (body : MessageParser → σ → σ ⊕ ρ) : ℕ → MessageParser → σ → MessageParser × (σ ⊕ ρ)
  | 0, p, s => (p, .inl s)
  | n + 1, p, s =>
    match p.next with
    | (.foundTag, q) =>
      match body q s with
      | .inl s => whileFound body n q s
      | .inr r => (q, .inr r)
    | (_, q) => (q, .inl s)

/-- A field takes at least one byte, so there are no more turns than bytes. -/
def forFields (body : MessageParser → σ → σ ⊕ ρ) (buffer : Bytes) (s : σ) : MessageParser × (σ ⊕ ρ) :=
  whileFound body (buffer.length + 1) (ofBuffer buffer) s

/-- The loop comes to its end, with the last state or with a result. -/
inductive Ends (body : MessageParser → σ → σ ⊕ ρ) : MessageParser → σ → σ ⊕ ρ → Prop
  | done {p : MessageParser} {s : σ} : p.next.1 ≠ .foundTag → Ends body p s (.inl s)
  | leave {p q : MessageParser} {s : σ} {r : ρ} : p.next = (.foundTag, q) → body q s = .inr r →
    Ends body p s (.inr r)
  | more {p q : MessageParser} {s s' : σ} {x : σ ⊕ ρ} : p.next = (.foundTag, q) → body q s = .inl s' →
      Ends body q s' x → Ends body p s x

theorem ends_more_iff {s' : σ} (hnext : p.next = (.foundTag, q))
    (hbody : body q s = .inl s') : Ends body p s x ↔ Ends body q s' x := by
  constructor
  · intro h
    cases h with
    | done hnot => simp [hnext] at hnot
    | leave hnext' hbody' =>
      obtain ⟨-, rfl⟩ := Prod.mk.inj (hnext.symm.trans hnext')
      cases hbody.symm.trans hbody'
    | more hnext' hbody' hrest =>
      obtain ⟨-, rfl⟩ := Prod.mk.inj (hnext.symm.trans hnext')
      obtain rfl := Sum.inl.inj (hbody.symm.trans hbody')
      exact hrest
  · exact .more hnext hbody

theorem Ends.unique {y : σ ⊕ ρ} (hx : Ends body p s x) (hy : Ends body p s y) : x = y := by
  induction hx with
  | done hnext =>
    cases hy with
    | done => rfl
    | leave hfd => simp [hfd] at hnext
    | more hfd => simp [hfd] at hnext
  | leave hfd hbody =>
    cases hy with
    | done hnext => simp [hfd] at hnext
    | leave hfd' hbody' =>
      obtain ⟨-, rfl⟩ := Prod.mk.inj (hfd.symm.trans hfd')
      exact hbody.symm.trans hbody'
    | more hfd' hbody' =>
      obtain ⟨-, rfl⟩ := Prod.mk.inj (hfd.symm.trans hfd')
      cases hbody.symm.trans hbody'
  | more hfd hbody _ ih => exact ih ((ends_more_iff hfd hbody).mp hy)

theorem ends_of_whileFound (h : (whileFound body n p s).2 = .inr r) : Ends body p s (.inr r) := by
  induction n generalizing p s with
  | zero => cases h
  | succ n ih =>
    rw [whileFound] at h
    split at h
    · rename_i q hnext
      split at h
      · rename_i s' hbody
        exact .more hnext hbody (ih h)
      · rename_i r' hbody
        exact .leave hnext (hbody.trans h)
    · cases h

theorem ends_of_forFields {buf : Bytes} (h : (forFields body buf s).2 = .inr r) :
    Ends body (ofBuffer buf) s (.inr r) := ends_of_whileFound h

/-- The body takes the state from `s` to `t` over a list of fields, without leaving the loop. -/
def Follows (body : MessageParser → σ → σ ⊕ ρ) : List Field → σ → σ → Prop
  | [], s, t => s = t
  | f :: fields, s, t => ∃ s', (∀ q, f.ReadAs q → body q s = .inl s') ∧ Follows body fields s' t

theorem Follows.append {fields' : List Field} {u : σ} (h : Follows body fields s t)
    (h' : Follows body fields' t u) : Follows body (fields ++ fields') s u := by
  induction fields generalizing s with
  | nil => exact h ▸ h'
  | cons f fields ih =>
    obtain ⟨s', hone, hrest⟩ := h
    exact ⟨s', hone, ih hrest⟩

/-- The loop passes over the fields to `q`, and is decided there. -/
theorem loop_follows (hsh : ∀ f ∈ fields, f.Short)
    (hfol : Follows body fields s t) (h : p.data.drop p.position = fields.flatMap Field.write ++ rest) :
    ∃ q, q.data = p.data ∧ q.position = p.position + (fields.flatMap Field.write).length ∧
      q.data.drop q.position = rest ∧
      (∀ n, whileFound body (fields.length + n) p s = whileFound body n q t) ∧
        ∀ x, Ends body p s x ↔ Ends body q t x := by
  induction fields generalizing p s with
  | nil => exact ⟨p, rfl, rfl, by simpa using h, fun n => by rw [hfol, length_nil, zero_add], fun x => by rw [hfol]⟩
  | cons f fields ih =>
    obtain ⟨hf, hsh⟩ := forall_mem_cons.mp hsh
    obtain ⟨s', hone, hfol⟩ := hfol
    rw [flatMap_cons, append_assoc] at h
    obtain ⟨q1, ⟨hnext, hdata1, hpos1, hrest1, -⟩, hread⟩ := next_field hf h
    obtain ⟨q, hdata, hpos, hrest, hrun, hends⟩ := ih hsh hfol hrest1
    refine ⟨q, hdata.trans hdata1, ?_, hrest, fun n => ?_, fun x =>
      (ends_more_iff hnext (hone q1 hread)).trans (hends x)⟩
    · rw [hpos, hpos1, flatMap_cons, length_append, add_assoc]
    · rw [length_cons, add_right_comm, whileFound, hnext]
      dsimp only
      rw [hone q1 hread]
      exact hrun n

theorem length_le_flatMap_write (fields : List Field) :
    fields.length ≤ (fields.flatMap Field.write).length := by
  induction fields with
  | nil => exact le_rfl
  | cons f fields ih =>
    have := f.length_write_pos
    rw [flatMap_cons, length_append, length_cons]
    omega

/-- The loop over a message that ends with the field at which the body leaves the loop. -/
theorem forFields_last {last : Field} (rest : Bytes) (hsh : ∀ f ∈ fields, f.Short)
    (hlast : last.Short) (hfol : Follows body fields s t)
    (hlv : ∀ q, last.ReadAs q → body q t = .inr r) :
    ∃ q, q.position = (fields.flatMap Field.write ++ last.write).length ∧
      forFields body (fields.flatMap Field.write ++ (last.write ++ rest)) s = (q, .inr r) := by
  obtain ⟨n, hn⟩ : ∃ n, (fields.flatMap Field.write ++ (last.write ++ rest)).length + 1 =
      fields.length + (n + 1) := by
    have := length_le_flatMap_write fields
    exact ⟨(fields.flatMap Field.write ++ (last.write ++ rest)).length - fields.length, by
      rw [length_append]
      omega⟩
  have hst : ∀ buf : Bytes, (ofBuffer buf).data.drop (ofBuffer buf).position = buf := fun _ => rfl
  obtain ⟨q1, -, hpos1, hrest1, hrun1, -⟩ := loop_follows hsh hfol (hst _)
  obtain ⟨q, ⟨hnext, -, hpos, -⟩, hread⟩ := next_field hlast hrest1
  refine ⟨q, ?_, ?_⟩
  · rw [hpos, hpos1, length_append, ofBuffer, zero_add]
  rw [forFields, hn, hrun1, whileFound, hnext]
  dsimp only
  rw [hlv q hread]

end Loop

end MessageParser

end FloweeHub.Streaming
