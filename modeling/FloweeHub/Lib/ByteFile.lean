import Mathlib.Data.List.Basic

/-! A file that is written at a moving position. -/

namespace FloweeHub.Lib.ByteFile

variable {β : Type*} {f d : List β} {p : ℕ}

def overwrite (f : List β) (p : ℕ) (d : List β) : List β := f.take p ++ d ++ f.drop (p + d.length)

theorem length_overwrite (h : p + d.length ≤ f.length) : (overwrite f p d).length = f.length := by
  rw [overwrite, List.length_append, List.length_append, List.length_take, List.length_drop]
  omega

end FloweeHub.Lib.ByteFile
