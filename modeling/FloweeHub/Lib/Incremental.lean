import Mathlib.Data.Nat.Notation
import Mathlib.Logic.Relation

/-! Reading a stream that arrives in pieces. When a turn is not changed by what arrives behind the
buffer, all ways of cutting one stream end in one state. -/

namespace FloweeHub.Lib.Incremental

open Relation

variable {α σ : Type*} {turn : σ → List α → Option (σ × ℕ)} {a b c : σ × List α}

/-- One turn, which takes elements from the front of the buffer; `none` waits for more. -/
def Step (turn : σ → List α → Option (σ × ℕ)) (a b : σ × List α) : Prop :=
  ∃ n, turn a.1 a.2 = some (b.1, n) ∧ b.2 = a.2.drop n

/-- What arrives behind the buffer does not change a turn that can be made. -/
structure Stable (turn : σ → List α → Option (σ × ℕ)) : Prop where
  taken : ∀ {s buffer s' n}, turn s buffer = some (s', n) → n ≤ buffer.length
  more : ∀ {s buffer s' n} (rest : List α), turn s buffer = some (s', n) →
    turn s (buffer ++ rest) = some (s', n)

theorem step_unique : Relator.RightUnique (Step turn) := by
  intro a b c hb hc
  obtain ⟨n, hn, hbuf⟩ := hb
  obtain ⟨m, hm, hbuf'⟩ := hc
  rw [hn] at hm
  obtain ⟨hst, rfl⟩ := Prod.mk.inj (Option.some.inj hm)
  exact Prod.ext hst (hbuf.trans hbuf'.symm)

/-- Where no turn can be made there is only the empty run. -/
theorem eq_of_waits (hwt : turn a.1 a.2 = none) (h : ReflTransGen (Step turn) a b) : a = b := by
  rcases h.cases_head with rfl | ⟨c, hstep, _⟩
  · rfl
  · obtain ⟨n, hn, _⟩ := hstep
    rw [hwt] at hn
    cases hn

/-- Two runs from one place that both wait ended in the same place. -/
theorem end_unique (hb : ReflTransGen (Step turn) a b) (hbwaits : turn b.1 b.2 = none)
    (hc : ReflTransGen (Step turn) a c) (hcwaits : turn c.1 c.2 = none) : b = c := by
  rcases ReflTransGen.total_of_right_unique step_unique hb hc with h | h
  · exact eq_of_waits hbwaits h
  · exact (eq_of_waits hcwaits h).symm

/-- What arrives later can as well have been there from the start. -/
theorem Stable.append (h : Stable turn) (hrun : ReflTransGen (Step turn) a b) (rest : List α) :
    ReflTransGen (Step turn) (a.1, a.2 ++ rest) (b.1, b.2 ++ rest) := by
  induction hrun with
  | refl => exact .refl
  | @tail b c _ hstep ih =>
    obtain ⟨n, hturn, hbuf⟩ := hstep
    refine ih.tail ⟨n, h.more rest hturn, ?_⟩
    rw [hbuf, List.drop_append_of_le_length (h.taken hturn)]

end FloweeHub.Lib.Incremental
