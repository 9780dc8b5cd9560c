import FloweeHub.Streaming.Message

/-! Undo blocks. `UndoBlockBuilder` writes one item for every output added or spent, and
`FastUndoBlock::nextItem` is a small state machine that collects fields until an item is complete.
The items come back as they were appended. -/

namespace FloweeHub

open Streaming MessageBuilder MessageParser List

/-- `FastUndoBlock::Item`. -/
@[ext]
structure UndoItem where
  prevTxId : Uint256
  outputIndex : ℤ
  blockHeight : ℤ
  offsetInBlock : ℤ
deriving DecidableEq, Repr

namespace UndoItem

def empty : UndoItem := ⟨0, -1, -1, -1⟩

/-- An output that the block inserted; undoing removes it. -/
def inserted (prevTxId : Uint256) (outputIndex : ℤ) : UndoItem := ⟨prevTxId, outputIndex, -1, -1⟩

def isInsert (item : UndoItem) : Bool := item.blockHeight = -1

def isValid (item : UndoItem) : Bool := item.prevTxId ≠ 0

@[simp] theorem isValid_empty : empty.isValid = false := rfl

/-- What both constructors guarantee when they are given real ids and `int` values. -/
structure WellFormed (item : UndoItem) : Prop where
  valid : item.prevTxId ≠ 0
  index : -2 ^ 31 ≤ item.outputIndex ∧ item.outputIndex < 2 ^ 31
  height : -2 ^ 31 ≤ item.blockHeight ∧ item.blockHeight < 2 ^ 31
  offset : -2 ^ 31 ≤ item.offsetInBlock ∧ item.offsetInBlock < 2 ^ 31
  insert : item.blockHeight = -1 → item.offsetInBlock = -1

end UndoItem

namespace UndoBlockBuilder

/-! The tags of `UndoBlockSpec`. -/

def StartBlock : ℕ := 0x10

def RMTxId : ℕ := 0x11

def RMTxOutIndex : ℕ := 0x12

def InsTxId : ℕ := 0x13

def InsTxOutIndex : ℕ := 0x14

def InsBlockHeight : ℕ := 0x15

def InsOffsetInBlock : ℕ := 0x16

def appendItem (item : UndoItem) : Bytes :=
  if item.isInsert then
    addUint256 RMTxId item.prevTxId ++ addInt RMTxOutIndex item.outputIndex
  else
    addUint256 InsTxId item.prevTxId ++ addInt InsTxOutIndex item.outputIndex ++
      addInt InsBlockHeight item.blockHeight ++
      addInt InsOffsetInBlock item.offsetInBlock

def append (items : List UndoItem) : Bytes := items.flatMap appendItem

/-- The buffers of `finish`, one after the other as `writeUndoBlock` stores them. -/
def build (blockId : Uint256) (chunks : List (List UndoItem)) : Bytes :=
  addUint256 StartBlock blockId ++ chunks.flatMap append

theorem build_ne_nil (blockId : Uint256) (chunks : List (List UndoItem)) :
    build blockId chunks ≠ [] := by
  refine append_ne_nil_of_left_ne_nil ?_ _
  rw [addUint256, addByteArray, append_assoc]
  exact append_ne_nil_of_left_ne_nil (ne_nil_of_length_pos (length_writeTag_pos _ _)) _

end UndoBlockBuilder

namespace FastUndoBlock

open UndoBlockBuilder

def nextItemFrom : ℕ → MessageParser → UndoItem → UndoItem × MessageParser
  | 0, p, answer => (answer, p)
  | n + 1, p, answer =>
    match p.next with
    | (.foundTag, q) =>
      if q.tag = StartBlock then nextItemFrom n q answer
      else if q.tag = RMTxId then nextItemFrom n q { answer with prevTxId := q.uint256Data }
      else if q.tag = RMTxOutIndex then ({ answer with outputIndex := q.intData }, q)
      else if q.tag = InsTxId then nextItemFrom n q { answer with prevTxId := q.uint256Data }
      else if q.tag = InsTxOutIndex then nextItemFrom n q { answer with outputIndex := q.intData }
      else if q.tag = InsBlockHeight then nextItemFrom n q { answer with blockHeight := q.intData }
      else if q.tag = InsOffsetInBlock then ({ answer with offsetInBlock := q.intData }, q)
      -- the `End` tag and unknown tags
      else (answer, q)
    | (_, q) => (answer, q)

/-- Every field takes at least one byte, so the length bounds the turns of the loop. -/
def nextItem (p : MessageParser) : UndoItem × MessageParser :=
  nextItemFrom (p.data.length + 1) p UndoItem.empty

/-- The items a caller sees that calls `nextItem` until an item is not valid. -/
def itemsFrom : ℕ → MessageParser → List UndoItem
  | 0, _ => []
  | n + 1, p =>
    let r := nextItem p
    if r.1.isValid then r.1 :: itemsFrom n r.2 else []

def items (data : Bytes) : List UndoItem := itemsFrom (data.length + 1) (ofBuffer data)

/-! ### Reading back what was built -/

section ReadBack

variable {p : MessageParser} {rest : Bytes} {item : UndoItem}

theorem nextItemFrom_insert (hw : item.WellFormed) (hi : item.blockHeight = -1) (n : ℕ)
    (h : p.data.drop p.position =
      addUint256 RMTxId item.prevTxId ++ (addInt RMTxOutIndex item.outputIndex ++ rest)) :
    ∃ q, nextItemFrom (n + 2) p UndoItem.empty = (item, q) ∧ q.data = p.data ∧
      q.data.drop q.position = rest := by
  obtain ⟨q1, ⟨h1, hd1, -, hp1, ht1⟩, hv1⟩ := next_addUint256 (by decide) h
  obtain ⟨q2, ⟨h2, hd2, -, hp2, ht2⟩, hv2⟩ := next_addInt (by decide) hw.index.1 hw.index.2 hp1
  refine ⟨q2, ?_, hd2.trans hd1, hp2⟩
  simp only [nextItemFrom, h1, h2, ht1, ht2, hv1, hv2, StartBlock, RMTxId, RMTxOutIndex]
  have ho := hw.insert hi
  simp [UndoItem.empty, UndoItem.ext_iff, hi, ho]

theorem nextItemFrom_remove (hw : item.WellFormed) (n : ℕ) (h : p.data.drop p.position =
      addUint256 InsTxId item.prevTxId ++ (addInt InsTxOutIndex item.outputIndex ++
          (addInt InsBlockHeight item.blockHeight ++ (addInt InsOffsetInBlock item.offsetInBlock ++
            rest)))) :
    ∃ q, nextItemFrom (n + 4) p UndoItem.empty = (item, q) ∧ q.data = p.data ∧
      q.data.drop q.position = rest := by
  obtain ⟨q1, ⟨h1, hd1, -, hp1, ht1⟩, hv1⟩ := next_addUint256 (by decide) h
  obtain ⟨q2, ⟨h2, hd2, -, hp2, ht2⟩, hv2⟩ := next_addInt (by decide) hw.index.1 hw.index.2 hp1
  obtain ⟨q3, ⟨h3, hd3, -, hp3, ht3⟩, hv3⟩ := next_addInt (by decide) hw.height.1 hw.height.2 hp2
  obtain ⟨q4, ⟨h4, hd4, -, hp4, ht4⟩, hv4⟩ := next_addInt (by decide) hw.offset.1 hw.offset.2 hp3
  refine ⟨q4, ?_, hd4.trans (hd3.trans (hd2.trans hd1)), hp4⟩
  simp only [nextItemFrom, h1, h2, h3, h4, ht1, ht2, ht3, ht4, hv1, hv2, hv3, hv4, StartBlock, RMTxId,
    RMTxOutIndex, InsTxId, InsTxOutIndex, InsBlockHeight, InsOffsetInBlock]
  simp

/-- One item is read back from its fields, by any loop with four turns left. -/
theorem nextItemFrom_appendItem (hw : item.WellFormed) (n : ℕ)
    (h : p.data.drop p.position = appendItem item ++ rest) :
    ∃ q, nextItemFrom (n + 4) p UndoItem.empty = (item, q) ∧ q.data = p.data ∧
      q.data.drop q.position = rest := by
  by_cases hi : item.blockHeight = -1
  · refine nextItemFrom_insert hw hi (n + 2) ?_
    simpa [appendItem, UndoItem.isInsert, hi] using h
  · refine nextItemFrom_remove hw n ?_
    simpa [appendItem, UndoItem.isInsert, hi] using h

theorem nextItemFrom_end (n : ℕ) (h : p.data.drop p.position = []) :
    (nextItemFrom n p UndoItem.empty).1 = UndoItem.empty := by
  cases n with
  | zero => rfl
  | succ n =>
    have hnone : p.data[p.position]? = none := getElem?_eq_none (drop_eq_nil_iff.mp h)
    simp [nextItemFrom, MessageParser.next, hnone]

theorem length_addUint256 (tag : ℕ) (v : Uint256) : 33 ≤ (addUint256 tag v).length := by
  have h := length_writeTag_pos tag .byteArray
  simp only [addUint256, addByteArray, length_append, Uint256.length_toBytes]
  omega

theorem length_appendItem (item : UndoItem) : 33 ≤ (appendItem item).length := by
  unfold appendItem
  split_ifs
  · have := length_addUint256 RMTxId item.prevTxId
    simp only [length_append]
    omega
  · have := length_addUint256 InsTxId item.prevTxId
    simp only [length_append]
    omega

theorem length_append_ge (items : List UndoItem) : items.length ≤ (append items).length := by
  induction items with
  | nil => simp
  | cons item items ih =>
    have := length_appendItem item
    simp only [append, flatMap_cons, length_append, length_cons] at ih ⊢
    omega

theorem itemsFrom_append {items : List UndoItem} (hw : ∀ i ∈ items, i.WellFormed) {n : ℕ}
    (hn : items.length < n) (h : p.data.drop p.position = append items) : itemsFrom n p = items := by
  induction items generalizing n p with
  | nil =>
    obtain ⟨n, rfl⟩ : ∃ m, n = m + 1 := ⟨n - 1, by simp at hn; omega⟩
    have hend : (nextItem p).1 = UndoItem.empty := nextItemFrom_end _ h
    simp [itemsFrom, hend]
  | cons item items ih =>
    obtain ⟨n, rfl⟩ : ∃ m, n = m + 1 := ⟨n - 1, by simp at hn; omega⟩
    have hitem := hw item mem_cons_self
    have hlen : 33 ≤ p.data.length := by
      have h1 := congrArg length h
      have h2 := length_appendItem item
      simp only [append, flatMap_cons, length_append, length_drop] at h1
      omega
    obtain ⟨q, hq, hd, hp⟩ := nextItemFrom_appendItem hitem (p.data.length - 3) h
    rw [show p.data.length - 3 + 4 = p.data.length + 1 by omega] at hq
    rw [itemsFrom, nextItem, hq]
    simp only [UndoItem.isValid, decide_eq_true hitem.valid, if_true]
    rw [ih (fun i hi => hw i (mem_cons_of_mem _ hi)) (by simpa using hn) (hd ▸ hp)]

theorem append_flatten (chunks : List (List UndoItem)) :
    chunks.flatMap append = append chunks.flatten := by
  induction chunks with
  | nil => rfl
  | cons chunk chunks ih =>
    rw [flatMap_cons, ih, flatten_cons]
    simp [append]

/-- Writing an undo block and reading it back gives the items of all chunks in order. -/
theorem items_build (blockId : Uint256) (chunks : List (List UndoItem))
    (hw : ∀ i ∈ chunks.flatten, i.WellFormed) : items (build blockId chunks) = chunks.flatten := by
  set data := build blockId chunks with hdata
  have hst : (ofBuffer data).data.drop (ofBuffer data).position =
      addUint256 StartBlock blockId ++ append chunks.flatten := by
    rw [← append_flatten]
    rfl
  have hsize : 33 + (append chunks.flatten).length ≤ data.length := by
    have h := length_addUint256 StartBlock blockId
    rw [hdata, build, append_flatten, length_append]
    omega
  obtain ⟨q, ⟨hq, -, -, hp, ht⟩, -⟩ := next_addUint256 (by decide) hst
  have hnext : nextItem (ofBuffer data) = nextItemFrom data.length q UndoItem.empty := by
    rw [nextItem, nextItemFrom, hq]
    simp [ht, ofBuffer]
  generalize chunks.flatten = its at hw hp hsize
  rw [items, itemsFrom, hnext]
  cases its with
  | nil =>
    have hend := nextItemFrom_end data.length hp
    simp [hend]
  | cons item its =>
    have hitem := hw item mem_cons_self
    obtain ⟨r, hr, -, hrp⟩ := nextItemFrom_appendItem hitem (data.length - 4) hp
    rw [Nat.sub_add_cancel (by omega)] at hr
    have hlen := length_append_ge (item :: its)
    have hrest := itemsFrom_append (p := r) (n := data.length)
      (fun i hi => hw i (mem_cons_of_mem item hi)) (by simp at hlen; omega) hrp
    simp only [hr, UndoItem.isValid, decide_eq_true hitem.valid, if_true, hrest]

end ReadBack

end FastUndoBlock

end FloweeHub
