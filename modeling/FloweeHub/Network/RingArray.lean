import FloweeHub.Lib.Runs
import Mathlib.Data.Int.Notation
import Mathlib.Data.List.Basic
import Mathlib.Tactic.Common

/-! The ring buffer of messages with its array and its three indices. It is a queue with a read
mark, apart from two places where the indices go round: `isFull` compares with `m_next + 1` also at
the end of the array, and `removeTip` takes the larger one of two indices although the mark still
stands at the end. -/

namespace FloweeHub.Network

open Lib List Function

/-- The array and its three indices. -/
structure RingArray (V : Type*) where
  array : ℕ → V
  first : ℕ
  readIndex : ℕ
  next : ℕ

namespace RingArray

variable {V : Type*} (n : ℕ) (b : RingArray V)

def empty [Inhabited V] : RingArray V := ⟨fun _ => default, 0, 0, 0⟩

/-- `if (++i >= NumItems) i = 0`. -/
def after (i : ℕ) : ℕ := if n ≤ i + 1 then 0 else i + 1

def append (v : V) : Option (RingArray V) :=
  if after n b.next ≠ b.first then
    some { b with array := update b.array b.next v, next := after n b.next }
  else none

def count : ℤ := (b.next : ℤ) - b.first + if b.next < b.first then (n : ℤ) else 0

def isEmpty : Bool := b.first = b.next

def tip : Option V := if b.first ≠ b.next then some (b.array b.first) else none

def removeTip [Inhabited V] : Option (RingArray V) :=
  if b.first ≠ b.next then
    let first := after n b.first
    some { b with
      array := update b.array b.first default
      first := first
      readIndex :=
        if first ≤ b.next then max b.readIndex first
        else if b.readIndex < first ∧ b.next < b.readIndex then first
        else b.readIndex }
  else none

def markRead : Option (RingArray V) :=
  let readIndex := (b.readIndex + 1) % n
  if 1 < n ∧ (b.first < b.next ∧ b.first ≤ readIndex ∧ readIndex ≤ b.next ∨
      b.next < b.first ∧ (b.first ≤ readIndex ∨ readIndex ≤ b.next)) then
    some { b with readIndex := readIndex }
  else none

/-- The loop of `removeAllRead`, for at most so many rounds. -/
def dropRead [Inhabited V] (n : ℕ) : ℕ → RingArray V → RingArray V
  | 0, b => b
  | rounds + 1, b =>
    if b.first = b.readIndex then b
    else dropRead n rounds { b with array := update b.array b.first default, first := after n b.first }

/-- In `n` rounds the loop comes to every index. -/
def removeAllRead [Inhabited V] : RingArray V := dropRead n n b

def unreadTip : Option V :=
  if b.first < b.next ∧ b.first ≤ b.readIndex ∧ b.readIndex < b.next ∨
      b.next < b.first ∧ (b.first ≤ b.readIndex ∨ b.readIndex < b.next) then
    some (b.array b.readIndex)
  else none

def hasUnread : Bool := b.readIndex ≠ b.next

def isFull : Bool := b.next + 1 = b.first

def markAllUnread : RingArray V := { b with readIndex := b.first }

def clear [Inhabited V] : RingArray V where
  array := (range (b.count n).toNat).foldl (fun a i => update a ((b.first + i) % n) default) b.array
  first := 0
  readIndex := 0
  next := 0

/-! ### The queue it stands for -/

/-- The queries answer as the list of the items does, of which so many are read. -/
structure Shows (items : List V) (read : ℕ) : Prop where
  count : b.count n = items.length
  isEmpty : b.isEmpty = true ↔ items = []
  tip : b.tip = items.head?
  hasUnread : b.hasUnread = true ↔ read < items.length
  unreadTip : b.unreadTip = items[read]?
  isFull : b.isFull = true ↔ items.length + 1 = n

/-- The place of the item `i` behind the place of the first one. -/
def place (n first i : ℕ) : ℕ := if first + i < n then first + i else first + i - n

/-- The ring holds these items, of which `read` were read. -/
structure Holds (items : List V) (read : ℕ) : Prop where
  first_lt : b.first < n
  length_lt : items.length < n
  read_le : read ≤ items.length
  next : b.next = place n b.first items.length
  readIndex : b.readIndex = place n b.first read
  cells : ∀ i < items.length, items[i]? = some (b.array (place n b.first i))

variable {n b} {items : List V} {read : ℕ} {v : V}

/-- All is shown unless the array is full from its first place on. -/
theorem Holds.shows (h : b.Holds n items read) (hfull : ¬ (b.first = 0 ∧ items.length + 1 = n)) :
    b.Shows n items read := by
  obtain ⟨hf, hlen, hread, hnext, hri, hcells⟩ := h
  unfold place at hnext hri
  refine ⟨?_, ?_, ?_, ?_, ?_, ?_⟩
  · unfold RingArray.count
    split_ifs at hnext ⊢ <;> omega
  · rw [RingArray.isEmpty, decide_eq_true_eq, ← length_eq_zero_iff]
    split_ifs at hnext <;> omega
  · unfold RingArray.tip
    cases items with
    | nil =>
      rw [if_neg]
      · rfl
      · rw [length_nil] at hnext
        split_ifs at hnext <;> omega
    | cons x xs =>
      have hx := hcells 0 (by simp)
      simp only [place, Nat.add_zero, hf, if_true] at hx
      rw [if_pos, ← hx]
      · rfl
      · rw [length_cons] at hnext hlen
        split_ifs at hnext <;> omega
  · rw [RingArray.hasUnread, decide_eq_true_eq]
    split_ifs at hnext hri <;> omega
  · unfold RingArray.unreadTip
    by_cases hlt : read < items.length
    · rw [hcells read hlt, if_pos]
      · rw [hri, place]
      · split_ifs at hnext hri <;> omega
    · rw [getElem?_eq_none (by omega), if_neg]
      split_ifs at hnext hri <;> omega
  · rw [RingArray.isFull, decide_eq_true_eq]
    split_ifs at hnext <;> omega

theorem Holds.append (h : b.Holds n items read) (hroom : items.length + 1 < n) (v : V) :
    ∃ b', b.append n v = some b' ∧ b'.Holds n (items ++ [v]) read ∧ b'.first = b.first := by
  obtain ⟨hf, hlen, hread, hnext, hri, hcells⟩ := h
  have hlen' : (items ++ [v]).length = items.length + 1 := length_append
  have hne : after n b.next ≠ b.first := by
    rw [hnext]
    unfold place after
    split_ifs <;> omega
  refine ⟨_, if_pos hne, ⟨hf, by omega, by omega, ?_, hri, fun i hi => ?_⟩, rfl⟩
  · dsimp only
    rw [hnext]
    unfold place after
    split_ifs <;> omega
  · dsimp only
    rcases Nat.lt_or_eq_of_le (Nat.le_of_lt_succ (hlen' ▸ hi)) with hlt | rfl
    · have hpl : place n b.first i ≠ b.next := by
        rw [hnext]
        unfold place
        split_ifs <;> omega
      rw [update_of_ne hpl, getElem?_append_left hlt, hcells i hlt]
    · rw [← hnext, update_self, getElem?_concat_length]

theorem Holds.markRead (h : b.Holds n items read) (hlt : read < items.length) :
    ∃ b', b.markRead n = some b' ∧ b'.Holds n items (read + 1) ∧ b'.first = b.first := by
  obtain ⟨hf, hlen, hread, hnext, hri, hcells⟩ := h
  have hmod : (b.readIndex + 1) % n = place n b.first (read + 1) := by
    rw [hri]
    unfold place
    split_ifs
    · exact Nat.mod_eq_of_lt (by omega)
    · rw [show b.first + read + 1 = n by omega, Nat.mod_self]
      omega
    · omega
    · rw [Nat.mod_eq_of_lt (by omega)]
      omega
  refine ⟨_, if_pos ⟨by omega, ?_⟩, ⟨hf, hlen, hlt, hnext, hmod, hcells⟩, rfl⟩
  rw [hmod, hnext]
  unfold place
  split_ifs <;> omega

variable [Inhabited V]

theorem holds_empty (hn : 2 ≤ n) : (empty : RingArray V).Holds n [] 0 where
  first_lt := by show 0 < n; omega
  length_lt := by show 0 < n; omega
  read_le := Nat.le_refl 0
  next := by simp [empty, place]
  readIndex := by simp [empty, place]
  cells i hi := by cases hi

/-- The first item goes, wherever the mark is then. -/
theorem Holds.tail (h : b.Holds n items read) (hpos : 0 < items.length) {readIndex read' : ℕ}
    (hri : readIndex = place n (after n b.first) read') (hle : read' + 1 ≤ items.length) :
    (⟨update b.array b.first default, after n b.first, readIndex, b.next⟩ : RingArray V).Holds n
      items.tail read' := by
  obtain ⟨hf, hlen, -, hnext, -, hcells⟩ := h
  have hafter : ∀ i, i + 1 ≤ n → place n (after n b.first) i = place n b.first (i + 1) := by
    intro i hi
    unfold place after
    split_ifs <;> omega
  refine ⟨?_, ?_, ?_, ?_, hri, fun i hi => ?_⟩
  · show after n b.first < n
    unfold after
    split_ifs <;> omega
  · rw [length_tail]
    omega
  · rw [length_tail]
    omega
  · rw [length_tail, hafter _ (by omega), Nat.sub_add_cancel hpos, hnext]
  · rw [length_tail] at hi
    have hother : place n b.first (i + 1) ≠ b.first := by
      unfold place
      split_ifs <;> omega
    show _ = some (update b.array b.first default (place n (after n b.first) i))
    rw [hafter i (by omega), update_of_ne hother, ← hcells (i + 1) (by omega), getElem?_tail]

/-- The mark stays on its item, or goes on to the next one. -/
theorem Holds.removeTip (h : b.Holds n items read) (hpos : 0 < items.length)
    (hmark : ¬ (b.readIndex = b.first ∧ b.first + 1 = n)) :
    ∃ b', b.removeTip n = some b' ∧ b'.Holds n items.tail (read - 1) := by
  have hf := h.first_lt
  have hlen := h.length_lt
  have hle := h.read_le
  have hnext := h.next
  have hri := h.readIndex
  have hfn : b.first ≠ b.next := by
    rw [hnext]
    unfold place
    split_ifs <;> omega
  refine ⟨_, if_pos hfn, h.tail hpos ?_ (by omega)⟩
  unfold place after at *
  split_ifs at * <;> omega

/-- The induction is on the items that are read. -/
theorem Holds.dropRead {rounds : ℕ} (h : b.Holds n items read) (hr : read ≤ rounds) :
    (dropRead n rounds b).Holds n (items.drop read) 0 ∧
      (read = 0 → (dropRead n rounds b).first = b.first) := by
  induction rounds generalizing b items read with
  | zero =>
    obtain rfl : read = 0 := by omega
    exact ⟨h, fun _ => rfl⟩
  | succ rounds ih =>
    have hf := h.first_lt
    have hlen := h.length_lt
    have hle := h.read_le
    have hri := h.readIndex
    cases read with
    | zero =>
      rw [RingArray.dropRead, if_pos (by rw [hri, place, if_pos] <;> omega)]
      exact ⟨h, fun _ => rfl⟩
    | succ read =>
      have hgo : b.first ≠ b.readIndex := by
        rw [hri]
        unfold place
        split_ifs <;> omega
      rw [RingArray.dropRead, if_neg hgo, ← drop_tail]
      refine ⟨(ih (h.tail (by omega) ?_ (by omega)) (by omega)).1, nofun⟩
      rw [hri]
      unfold place after
      split_ifs <;> omega

/-! ### Sequences of calls -/

/-- The operations of the ring buffer. -/
inductive Op (V : Type*)
  | append (v : V)
  | removeTip
  | markRead
  | removeAllRead
  | markAllUnread
  | clear

namespace Op

def run (n : ℕ) (b : RingArray V) : Op V → Option (RingArray V)
  | append v => b.append n v
  | removeTip => b.removeTip n
  | markRead => b.markRead n
  | removeAllRead => some (b.removeAllRead n)
  | markAllUnread => some b.markAllUnread
  | clear => some (b.clear n)

/-- The queue after the call, and how many of its items are read. -/
def onQueue (items : List V) (read : ℕ) : Op V → List V × ℕ
  | append v => (items ++ [v], read)
  | removeTip => (items.tail, read - 1)
  | markRead => (items, read + 1)
  | removeAllRead => (items.drop read, 0)
  | markAllUnread => (items, 0)
  | clear => ([], 0)

/-- The callers look before they call. -/
def guarded (b : RingArray V) : Op V → Bool
  | append _ => !b.isFull
  | removeTip => !b.isEmpty
  | markRead => b.hasUnread
  | _ => true

/-- Nothing is added that would fill the array from its first place on, and no unread item is taken
from its last place. -/
def straight (n : ℕ) (b : RingArray V) : Op V → Bool
  | append _ => ¬ (b.first = 0 ∧ b.next + 2 = n)
  | removeTip => ¬ (b.readIndex = b.first ∧ b.first + 1 = n)
  | _ => true

end Op

/-- A ring buffer beside the queue that it stands for. -/
structure Session (V : Type*) where
  ring : Option (RingArray V)
  items : List V
  read : ℕ

def Session.start : Session V := ⟨some empty, [], 0⟩

def Session.step (n : ℕ) (s : Session V) (op : Op V) : Session V :=
  ⟨s.ring.bind (op.run n), (op.onQueue s.items s.read).1, (op.onQueue s.items s.read).2⟩

/-- No assertion failed, and the ring buffer looks like the queue. -/
def Session.Agrees (n : ℕ) (s : Session V) : Prop := ∃ b, s.ring = some b ∧ b.Shows n s.items s.read

/-- They agree, and the places where they part are not reached. -/
def Session.Inv (n : ℕ) (s : Session V) : Prop :=
  ∃ b, s.ring = some b ∧ b.Holds n s.items s.read ∧ ¬ (b.first = 0 ∧ s.items.length + 1 = n)

omit [Inhabited V] in
theorem Session.Inv.agrees {s : Session V} (h : s.Inv n) : s.Agrees n := by
  obtain ⟨b, hb, hh, hfull⟩ := h
  exact ⟨b, hb, hh.shows hfull⟩

omit [Inhabited V] in
theorem Holds.room (h : b.Holds n items read) (hfull : ¬ (b.first = 0 ∧ items.length + 1 = n))
    (hg : b.isFull = false) : items.length + 1 < n := by
  have hlen := h.length_lt
  have hshow := (h.shows hfull).isFull
  rw [hg] at hshow
  have hne : items.length + 1 ≠ n := fun he => Bool.false_ne_true (hshow.mpr he)
  omega

omit [Inhabited V] in
theorem Holds.not_full_of_shows (h : b.Holds n items read) (hroom : items.length + 1 < n) {v : V}
    (hs : ∃ b', b.append n v = some b' ∧ b'.Shows n (items ++ [v]) read) :
    ¬ (b.first = 0 ∧ b.next + 2 = n) := by
  obtain ⟨b', hb', -, hfirst⟩ := h.append hroom v
  have hnext := h.next
  have hlen : (items ++ [v]).length = items.length + 1 := length_append
  have hfull : (b.first = 0 ∧ b.next + 2 = n) ↔ b'.first = 0 ∧ (items ++ [v]).length + 1 = n := by
    rw [hfirst, hlen, hnext, place]
    split_ifs <;> omega
  rw [hfull]
  obtain ⟨c, hc, hshow⟩ := hs
  rintro ⟨h0, hl⟩
  cases hb'.symm.trans hc
  have hif := hshow.isFull.mpr hl
  rw [isFull, decide_eq_true_eq, h0] at hif
  cases hif

theorem Holds.not_wrapped_of_shows (h : b.Holds n items read) (hpos : 0 < items.length)
    (hs : ∃ b', b.removeTip n = some b' ∧ b'.Shows n items.tail (read - 1)) :
    ¬ (b.readIndex = b.first ∧ b.first + 1 = n) := by
  have hlen := h.length_lt
  obtain ⟨b', hb', hshow⟩ := hs
  rintro ⟨hri, hlast⟩
  have hnext := h.next
  have hread := h.readIndex
  have hle := h.read_le
  rw [place, if_neg (by omega)] at hnext
  have hafter : after n b.first = 0 := if_pos (by omega)
  rw [RingArray.removeTip, if_pos (by omega), Option.some_inj] at hb'
  have hfirst : b'.first = 0 := by
    rw [← hb']
    exact hafter
  have hmark : b'.readIndex = b.first := by
    rw [← hb']
    simp only [hafter, Nat.zero_le, if_true, hri, Nat.max_zero]
  have hend : b'.next = b.next := by rw [← hb']
  have hun := hshow.hasUnread.mp (by rw [RingArray.hasUnread, decide_eq_true_eq]; omega)
  have htip := hshow.unreadTip
  rw [RingArray.unreadTip, if_neg (by omega), getElem?_eq_getElem hun] at htip
  cases htip

theorem Session.Inv.step {s : Session V} {op : Op V} (h : s.Inv n) (hg : s.ring.all op.guarded)
    (hs : s.ring.all (op.straight n)) : (s.step n op).Inv n := by
  obtain ⟨ring, items, read⟩ := s
  obtain ⟨b, rfl, hh, hfull⟩ := h
  dsimp only at hh hfull
  have hlen := hh.length_lt
  have hf := hh.first_lt
  have hle := hh.read_le
  have hnext := hh.next
  unfold place at hnext
  cases op with
  | append v =>
    have hroom := hh.room hfull (by simpa [Op.guarded] using hg)
    obtain ⟨b', hb', hh', hfirst⟩ := hh.append hroom v
    have hn : ¬ (b.first = 0 ∧ b.next + 2 = n) := of_decide_eq_true hs
    refine ⟨b', hb', hh', ?_⟩
    show ¬ (_ ∧ (items ++ [v]).length + 1 = n)
    rw [hfirst, length_append, length_singleton]
    split_ifs at hnext <;> omega
  | removeTip =>
    have hpos : 0 < items.length := by
      have hne : b.first ≠ b.next := by simpa [Op.guarded, isEmpty] using hg
      split_ifs at hnext <;> omega
    obtain ⟨b', hb', hh'⟩ := hh.removeTip hpos (of_decide_eq_true hs)
    refine ⟨b', hb', hh', ?_⟩
    show ¬ (_ ∧ items.tail.length + 1 = n)
    rw [length_tail]
    omega
  | markRead =>
    obtain ⟨b', hb', hh', hfirst⟩ := hh.markRead ((hh.shows hfull).hasUnread.mp hg)
    exact ⟨b', hb', hh', hfirst ▸ hfull⟩
  | removeAllRead =>
    have hread : read ≤ n := by omega
    obtain ⟨hh', hfirst⟩ := hh.dropRead hread
    refine ⟨_, rfl, hh', ?_⟩
    rintro ⟨h0, hl⟩
    have hl' : items.length - read + 1 = n := length_drop ▸ hl
    exact hfull ⟨hfirst (by omega) ▸ h0, by omega⟩
  | markAllUnread =>
    have hmark : b.first = place n b.first 0 := (if_pos hf).symm
    exact ⟨_, rfl, ⟨hf, hlen, Nat.zero_le _, hh.next, hmark, hh.cells⟩, hfull⟩
  | clear =>
    have h0 : 0 = place n 0 0 := by simp [place]
    refine ⟨_, rfl, ⟨?_, ?_, Nat.le_refl 0, h0, h0, nofun⟩, ?_⟩
    · show 0 < n
      omega
    · show 0 < n
      omega
    · show ¬ (0 = 0 ∧ 0 + 1 = n)
      omega

theorem Session.Inv.straight {s : Session V} {op : Op V} (h : s.Inv n) (hg : s.ring.all op.guarded)
    (hs : (s.step n op).Agrees n) : s.ring.all (op.straight n) := by
  obtain ⟨ring, items, read⟩ := s
  obtain ⟨b, rfl, hh, hfull⟩ := h
  cases op with
  | append v =>
    have hroom := hh.room hfull (by simpa [Op.guarded] using hg)
    exact decide_eq_true (hh.not_full_of_shows hroom hs)
  | removeTip =>
    have hpos : items ≠ [] := fun he => by
      have hemp := (hh.shows hfull).isEmpty.mpr he
      simp [Op.guarded, hemp] at hg
    exact decide_eq_true (hh.not_wrapped_of_shows (length_pos_iff.mpr hpos) hs)
  | markRead => rfl
  | removeAllRead => rfl
  | markAllUnread => rfl
  | clear => rfl

/-- The ring buffer is a queue with a read mark after every call of a sequence exactly if no call
fills the array from its first place on or takes an unread item from its last place. -/
theorem queue_along_iff (hn : 2 ≤ n) (ops : List (Op V))
    (hg : Runs.Along (Session.step n) (fun s op => s.ring.all op.guarded) .start ops) :
    Runs.Along (Session.step n) (fun s op => (s.step n op).Agrees n) .start ops ↔
      Runs.Along (Session.step n) (fun s op => s.ring.all (op.straight n)) .start ops := by
  refine Runs.along_congr (Session.Inv n) (fun s op h hop => ?_) ⟨empty, rfl, holds_empty hn, ?_⟩ hg
  · refine ⟨⟨h.straight hop, fun hs => (h.step hop hs).agrees⟩, fun hs => h.step hop (h.straight hop hs)⟩
  · show ¬ (0 = 0 ∧ 0 + 1 = n)
    omega

theorem queue_along_three :
    let ops : List (Op ℕ) := [.append 1, .markRead, .removeAllRead, .append 2, .append 3,
      .removeTip, .clear]
    Runs.Along (Session.step 3) (fun s op => (s.step 3 op).Agrees 3) .start ops :=
  (queue_along_iff (by decide) _ (by decide)).mpr (by decide)

/-- In an array of three places two items do not fill it, and a third one fails the assertion. And
when the unread item at the last place is taken away, an item seems to be left. -/
theorem not_queue_along :
    (∃ ops : List (Op ℕ), Runs.Along (Session.step 3) (fun s op => s.ring.all op.guarded) .start ops ∧
      (ops.foldl (Session.step 3) .start).ring.isNone) ∧
    ∃ ops : List (Op ℕ), Runs.Along (Session.step 3) (fun s op => s.ring.all op.guarded) .start ops ∧
      (ops.foldl (Session.step 3) .start).ring.any fun b => b.isEmpty && b.hasUnread :=
  ⟨⟨[.append 1, .append 2, .append 3], by decide⟩,
    [.append 1, .markRead, .removeAllRead, .append 2, .markRead, .removeAllRead, .append 3,
      .removeTip], by decide⟩

end RingArray

end FloweeHub.Network
