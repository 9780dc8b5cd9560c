import Mathlib.Init

/-! Loops over a list that may fail, with an invariant about the elements that are done. -/

namespace FloweeHub.Lib.Loops

variable {σ α : Type*} {f : σ → α → Option σ} {l : List α} {s : σ}

/-- The loop rule: the invariant grows by the element of each turn. -/
theorem foldlM_grow {P : List α → σ → Prop}
    (hstep : ∀ done a rest s, l = done ++ a :: rest → P done s → ∃ s', f s a = some s' ∧
      P (done ++ [a]) s') (h : P [] s) :
    ∃ s', l.foldlM f s = some s' ∧ P l s' := by
  suffices hgen : ∀ todo done s, l = done ++ todo → P done s → ∃ s', todo.foldlM f s = some s' ∧
    P l s' from
    hgen l [] s rfl h
  intro todo
  induction todo with
  | nil =>
    intro done s hl hs
    rw [List.append_nil] at hl
    exact ⟨s, rfl, hl ▸ hs⟩
  | cons a todo ih =>
    intro done s hl hs
    obtain ⟨s1, hs1, hP⟩ := hstep done a todo s hl hs
    obtain ⟨s2, hs2, hP⟩ := ih (done ++ [a]) s1 (by rw [hl, List.append_assoc]; rfl) hP
    refine ⟨s2, ?_, hP⟩
    rw [List.foldlM_cons, hs1]
    exact hs2

theorem foldlM_keep {P : σ → Prop} (hstep : ∀ s, ∀ a ∈ l, P s → ∃ s', f s a = some s' ∧ P s') (h : P s) :
    ∃ s', l.foldlM f s = some s' ∧ P s' :=
  foldlM_grow (P := fun _ => P) (fun done a rest s hl hs => hstep s a (by simp [hl]) hs) h

end FloweeHub.Lib.Loops
