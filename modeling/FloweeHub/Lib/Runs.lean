import Mathlib.Init
/-! Sequences of calls on a state. `Along step P` says that each call satisfies `P` in the state in
which it is made. -/

namespace FloweeHub.Lib.Runs

variable {σ κ : Type*} {step : σ → κ → σ} {P Q R : σ → κ → Prop} {s : σ} {cs : List κ}

/-- Each call satisfies `P` in the state in which it is made. -/
def Along (step : σ → κ → σ) (P : σ → κ → Prop) : σ → List κ → Prop
  | _, [] => True
  | s, c :: cs => P s c ∧ Along step P (step s c) cs

instance Along.decidable [∀ s c, Decidable (P s c)] :
    ∀ (s : σ) (cs : List κ), Decidable (Along step P s cs)
  | _, [] => inferInstanceAs (Decidable True)
  | s, c :: cs =>
    have := Along.decidable (step s c) cs
    inferInstanceAs (Decidable (P s c ∧ Along step P (step s c) cs))

theorem Along.and (hP : Along step P s cs) (hQ : Along step Q s cs) :
    Along step (fun s c => P s c ∧ Q s c) s cs := by
  induction cs generalizing s with
  | nil => trivial
  | cons c cs ih => exact ⟨⟨hP.1, hQ.1⟩, ih hP.2 hQ.2⟩

theorem along_true (s : σ) (cs : List κ) : Along step (fun _ _ => True) s cs := by
  induction cs generalizing s with
  | nil => trivial
  | cons c cs ih => exact ⟨trivial, ih (step s c)⟩

theorem along_concat {c : κ} : Along step P s (cs ++ [c]) ↔ Along step P s cs ∧
      P (cs.foldl step s) c := by
  induction cs generalizing s with
  | nil => exact ⟨fun h => ⟨trivial, h.1⟩, fun h => ⟨h.2, trivial⟩⟩
  | cons d cs ih =>
    show P s d ∧ Along step P (step s d) (cs ++ [c]) ↔ (P s d ∧ Along step P (step s d) cs) ∧
      P (cs.foldl step (step s d)) c
    rw [ih, and_assoc]

/-- `Q` and `R` mean the same along a sequence if they do so where the invariant holds. -/
theorem along_congr (Inv : σ → Prop)
    (hstep : ∀ s c, Inv s → P s c → (Q s c ↔ R s c) ∧ (Q s c → Inv (step s c))) (hs : Inv s)
    (hP : Along step P s cs) : Along step Q s cs ↔ Along step R s cs := by
  induction cs generalizing s with
  | nil => exact Iff.rfl
  | cons c cs ih =>
    obtain ⟨hiff, hkeep⟩ := hstep s c hs hP.1
    refine ⟨fun h => ⟨hiff.mp h.1, ?_⟩, fun h => ⟨hiff.mpr h.1, ?_⟩⟩
    · exact (ih (hkeep h.1) hP.2).mp h.2
    · exact (ih (hkeep (hiff.mpr h.1)) hP.2).mpr h.2

end FloweeHub.Lib.Runs
