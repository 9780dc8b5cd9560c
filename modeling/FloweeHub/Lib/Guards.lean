import Mathlib.Tactic.TypeStar

/-! When a computation that can throw returns a value: every guard on the way was passed
and every step it went through returned. -/

namespace FloweeHub.Lib.Guards

variable {ε α β : Type*} {e : ε} {b : β} {x : Except ε α} {f : α → Except ε β} {t : ε}

@[simp] theorem bind_eq_ok_iff : x.bind f = .ok b ↔ ∃ a, x = .ok a ∧ f a = .ok b := by
  cases x <;> simp [Except.bind]

@[simp] theorem ite_error_eq_ok_iff {p : Prop} [Decidable p] {x : Except ε β} :
    (if p then .error e else x) = .ok b ↔ ¬ p ∧ x = .ok b := by
  by_cases hp : p <;> simp [hp]

@[simp] theorem ok_bind {a : α} : (Except.ok a).bind f = f a := rfl

@[simp] theorem error_bind : (Except.error e).bind f = .error e := rfl

theorem map_eq_ok_iff {f : α → β} {b : β} : x.map f = .ok b ↔ ∃ a, x = .ok a ∧ f a = b := by
  cases x <;> simp [Except.map]

theorem bind_eq_error_iff : x.bind f = .error t ↔ x = .error t ∨ ∃ a, x = .ok a ∧ f a = .error t := by
  cases x <;> simp [Except.bind]

theorem ite_error_eq_error_iff {c : Prop} [Decidable c] {t' : ε} :
    (if c then .error t' else x) = .error t ↔ (c ∧ t' = t) ∨ (¬ c ∧ x = .error t) := by
  by_cases h : c <;> simp [h]

end FloweeHub.Lib.Guards
