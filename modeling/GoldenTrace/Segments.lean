/-!
# Segments of a list

A list is cut at every element that satisfies a test; the cutting elements are
dropped and everything between them is kept, empty segments included. Lines of
a text are its segments at line feeds, words come from its segments at blanks,
and the machine cycles of a queue are its segments at cycle ends.
-/

namespace GoldenTrace

variable {α : Type}

/-- The segments of a list between the elements that satisfy `p`. A list with
`n` such elements has `n + 1` segments. -/
def segments (p : α → Bool) : List α → List (List α)
  | [] => [[]]
  | a :: l =>
    if p a then [] :: segments p l
    else
      match segments p l with
      | [] => [[a]]
      | s :: ss => (a :: s) :: ss

theorem segments_ne_nil (p : α → Bool) (l : List α) : segments p l ≠ [] := by
  cases l with
  | nil => simp [segments]
  | cons a l =>
    rw [segments]
    split
    · simp
    · split <;> simp

@[simp] theorem segments_nil (p : α → Bool) : segments p ([] : List α) = [[]] := rfl

theorem segments_cons_cut {p : α → Bool} {a : α} (h : p a = true) (l : List α) :
    segments p (a :: l) = [] :: segments p l := by
  simp [segments, h]

theorem segments_cons_keep {p : α → Bool} {a : α} (h : p a = false) {l s : List α}
    {ss : List (List α)} (hs : segments p l = s :: ss) :
    segments p (a :: l) = (a :: s) :: ss := by
  simp [segments, h, hs]

end GoldenTrace
