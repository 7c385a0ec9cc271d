import Mathlib.Data.List.Basic

/-!
# Steps that may fail

A sequence of steps succeeds exactly if each of them does, and fails as the first that does not.
-/

namespace GoldenTrace

variable {ε α β : Type}

/-- A sequence of two steps succeeds exactly if both do. -/
theorem bind_eq_ok_iff {x : Except ε α} {f : α → Except ε β} {b : β} :
    (x >>= f) = .ok b ↔ ∃ a, x = .ok a ∧ f a = .ok b := by
  cases x with
  | error e =>
      constructor
      · intro h
        cases h
      · rintro ⟨a, h, -⟩
        cases h
  | ok a =>
      constructor
      · intro h
        exact ⟨a, rfl, h⟩
      · rintro ⟨a', h, hb⟩
        cases h
        exact hb

theorem map_eq_ok_iff {x : Except ε α} {f : α → β} {b : β} :
    f <$> x = .ok b ↔ ∃ a, x = .ok a ∧ f a = b := by
  cases x with
  | error e =>
      show Except.error e = Except.ok b ↔ _
      simp
  | ok a =>
      show Except.ok (f a) = Except.ok b ↔ _
      simp

theorem forM_eq_ok_iff {f : α → Except ε Unit} {l : List α} :
    l.forM f = .ok () ↔ ∀ a ∈ l, f a = .ok () := by
  induction l with
  | nil =>
      rw [List.forM]
      simp only [List.not_mem_nil, false_implies, implies_true, iff_true]
      rfl
  | cons a l ih =>
      rw [List.forM, bind_eq_ok_iff, List.forall_mem_cons, ← ih]
      constructor
      · rintro ⟨_, ha, hl⟩
        exact ⟨ha, hl⟩
      · rintro ⟨ha, hl⟩
        exact ⟨(), ha, hl⟩

/-- A sequence of two steps fails as the first of them that does. -/
theorem bind_eq_error_iff {x : Except ε α} {f : α → Except ε β} {err : ε} :
    (x >>= f) = .error err ↔ x = .error err ∨ ∃ a, x = .ok a ∧ f a = .error err := by
  cases x with
  | error err' =>
      show Except.error err' = Except.error err ↔ _
      simp
  | ok a =>
      show f a = Except.error err ↔ _
      simp

theorem exists_error_of_forM {f : α → Except ε Unit} {l : List α} {err : ε}
    (h : l.forM f = .error err) : ∃ a ∈ l, f a = .error err := by
  induction l with
  | nil => cases h
  | cons a l ih =>
      rw [List.forM] at h
      rcases bind_eq_error_iff.mp h with ha | ⟨_, -, hl⟩
      · exact ⟨a, List.mem_cons_self, ha⟩
      · obtain ⟨b, hb, herr⟩ := ih hl
        exact ⟨b, List.mem_cons_of_mem a hb, herr⟩

end GoldenTrace
