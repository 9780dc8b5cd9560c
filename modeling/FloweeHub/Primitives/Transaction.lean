import FloweeHub.Lib.LittleEndian
import FloweeHub.Lib.Wrap64

/-! Transactions and money. A transaction is kept with its id and its serialised size. Amounts are
`int64_t`, so sums are taken with `Wrap64.add`.

The build that is modelled, here and in all other modules, is the one with asserts: where the data
can make one fail, the definition has no result or an error. Asserts on threads, on pointers and on
what the caller has just made sure of are left out. -/

namespace FloweeHub

open Lib

abbrev Bytes := List UInt8

abbrev Uint256 := BitVec 256

instance : LawfulBEq Uint256 := inferInstance

namespace Uint256

def toBytes (h : Uint256) : Bytes := LittleEndian.encode 32 h.toNat

def ofBytes (bs : Bytes) : Uint256 := BitVec.ofNat 256 (LittleEndian.decode bs)

theorem length_toBytes (h : Uint256) : h.toBytes.length = 32 := LittleEndian.length_encode 32 _

theorem ofBytes_toBytes (h : Uint256) : ofBytes h.toBytes = h := by
  have hlt : h.toNat < 256 ^ 32 := lt_of_lt_of_eq h.isLt (by decide)
  rw [ofBytes, toBytes, LittleEndian.decode_encode, Nat.mod_eq_of_lt hlt, BitVec.ofNat_toNat,
    BitVec.setWidth_eq]

end Uint256

/-- The value of an `int` after a conversion from a wider or unsigned type. -/
def toInt32 (n : ℤ) : ℤ := n.bmod (2 ^ 32)

theorem toInt32_of_fits {n : ℤ} (hlo : -2 ^ 31 ≤ n) (hhi : n < 2 ^ 31) : toInt32 n = n :=
  Int.bmod_eq_of_le (by norm_num; omega) (by norm_num; omega)

def COIN : ℤ := 100000000

def MAX_MONEY : ℤ := 21000000 * COIN

def MoneyRange (nValue : ℤ) : Bool := 0 ≤ nValue ∧ nValue ≤ MAX_MONEY

variable {v : ℤ}

theorem moneyRange_iff : MoneyRange v ↔ 0 ≤ v ∧ v ≤ MAX_MONEY := by
  simp [MoneyRange]

/-- Twice the money range is far from the end of the `int64_t` range. -/
theorem fits_of_abs_le (hlo : -(2 * MAX_MONEY) ≤ v) (hhi : v ≤ 2 * MAX_MONEY) : Wrap64.Fits v := by
  simp only [MAX_MONEY, COIN] at hlo hhi
  exact ⟨by omega, by omega⟩

/-- `COutPoint`: `n` is a `uint32_t`. -/
structure OutPoint where
  hash : Uint256
  n : ℕ
deriving DecidableEq, Repr

def OutPoint.IsNull (o : OutPoint) : Bool := o.hash = 0 ∧ o.n = 0xFFFFFFFF

/-- An input. -/
structure TxIn where
  prevout : OutPoint
  scriptSig : Bytes
  nSequence : ℕ
deriving DecidableEq, Repr

/-- An output. -/
structure TxOut where
  nValue : ℤ
  scriptPubKey : Bytes
deriving DecidableEq, Repr

/-- `CTransaction` with its cached `hash` and the size of its serialisation. -/
structure Transaction where
  hash : Uint256
  nVersion : ℤ
  vin : List TxIn
  vout : List TxOut
  nLockTime : ℕ
  size : ℕ
deriving DecidableEq, Repr

namespace Transaction

variable (tx : Transaction)

def IsCoinBase : Bool :=
  match tx.vin with
  | [txin] => txin.prevout.IsNull
  | _ => false

/-- The loop of `CTransaction::GetValueOut` from the running sum `nValueOut`. -/
def valueOutFrom (nValueOut : ℤ) : List TxOut → Except String ℤ
  | [] => .ok nValueOut
  | txout :: rest =>
    let sum := Wrap64.add nValueOut txout.nValue
    if MoneyRange txout.nValue && MoneyRange sum then valueOutFrom sum rest
    else .error "CTransaction::GetValueOut(): value out of range"

def GetValueOut : Except String ℤ := valueOutFrom 0 tx.vout

def valueOut : ℤ := (tx.vout.map TxOut.nValue).sum

theorem valueOutFrom_ok {acc : ℤ} {vout : List TxOut} (hacc : MoneyRange acc)
    (h : valueOutFrom acc vout = .ok v) :
    v = acc + (vout.map TxOut.nValue).sum ∧ MoneyRange v ∧ ∀ o ∈ vout, MoneyRange o.nValue := by
  induction vout generalizing acc with
  | nil =>
    obtain rfl : acc = v := by simpa [valueOutFrom] using h
    simp [hacc]
  | cons o rest ih =>
    simp only [valueOutFrom] at h
    split_ifs at h with hr
    rw [Bool.and_eq_true] at hr
    have hsum : Wrap64.add acc o.nValue = acc + o.nValue := by
      have h1 := moneyRange_iff.mp hacc
      have h2 := moneyRange_iff.mp hr.1
      simp only [MAX_MONEY, COIN] at h1 h2
      exact Wrap64.add_of_fits (fits_of_abs_le (by simp only [MAX_MONEY, COIN]; omega)
        (by simp only [MAX_MONEY, COIN]; omega))
    obtain ⟨hv, hm, hall⟩ := ih hr.2 h
    refine ⟨?_, hm, ?_⟩
    · rw [hv, hsum, List.map_cons, List.sum_cons, add_assoc]
    · intro o' ho'
      rcases List.mem_cons.mp ho' with rfl | ho'
      · exact hr.1
      · exact hall o' ho'

/-- `GetValueOut` returns the exact sum, and only for outputs in the money range. -/
theorem GetValueOut_ok {tx : Transaction} (h : tx.GetValueOut = .ok v) :
    v = tx.valueOut ∧ MoneyRange v ∧ ∀ o ∈ tx.vout, MoneyRange o.nValue := by
  have hzero : MoneyRange 0 := by decide
  simpa [valueOut] using valueOutFrom_ok hzero h

end Transaction

/-- `Tx::Input`: the id and the `int` index of the output an input spends. -/
structure TxInput where
  txid : Uint256
  index : ℤ
deriving DecidableEq, Repr

def TxIn.toInput (txin : TxIn) : TxInput := ⟨txin.prevout.hash, toInt32 txin.prevout.n⟩

def Transaction.findInputs (tx : Transaction) : List TxInput := tx.vin.map TxIn.toInput

end FloweeHub
