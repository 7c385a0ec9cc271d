import GoldenTrace.Segments

/-!
# What segments are joined from

Cutting a list is splitting it in the sense of the library. A cut separates the
segments before it from those after it, no segment has a cut, there is one
segment more than there are cuts, and lists without cuts are the segments of
what they are joined to by cuts.
-/

namespace GoldenTrace

variable {α : Type} {p : α → Bool} {l : List α}

/-- An element that is no cut belongs to the first segment of the rest. -/
theorem segments_cons_of_false {a : α} (h : p a = false) (l : List α) :
    segments p (a :: l) = (segments p l).modifyHead (a :: ·) := by
  obtain ⟨s, ss, hs⟩ := List.exists_cons_of_ne_nil (segments_ne_nil p l)
  rw [segments_cons_keep h hs, hs, List.modifyHead_cons]

theorem segments_eq_splitOnP (p : α → Bool) (l : List α) : segments p l = l.splitOnP p := by
  induction l with
  | nil => rfl
  | cons a l ih =>
      rw [List.splitOnP_cons_eq_if_modifyHead]
      cases ha : p a with
      | true => rw [segments_cons_cut ha, ih, if_pos rfl]
      | false => rw [segments_cons_of_false ha, ih, if_neg Bool.false_ne_true]

theorem segments_eq_singleton (h : ∀ a ∈ l, p a = false) : segments p l = [l] := by
  rw [segments_eq_splitOnP, List.splitOnP_eq_singleton h]

/-- The first segment goes up to the first cut. -/
theorem segments_append_cut (h : ∀ a ∈ l, p a = false) {c : α} (hc : p c = true) (r : List α) :
    segments p (l ++ c :: r) = l :: segments p r := by
  rw [segments_eq_splitOnP, segments_eq_splitOnP, List.splitOnP_append_cons_of_forall_mem h c hc]

/-- A cut anywhere separates the segments before it from those after it. -/
theorem segments_append_cons_cut {c : α} (hc : p c = true) (l r : List α) :
    segments p (l ++ c :: r) = segments p l ++ segments p r := by
  simp only [segments_eq_splitOnP, List.splitOnP_append_cons l r hc]

theorem segments_map {β : Type} (p : β → Bool) (f : α → β) (l : List α) :
    segments p (l.map f) = (segments (fun a => p (f a)) l).map (List.map f) := by
  induction l with
  | nil => rfl
  | cons a l ih =>
      rw [List.map_cons]
      cases ha : p (f a) with
      | true =>
          rw [segments_cons_cut ha, ih, segments, if_pos ha]
          rfl
      | false =>
          obtain ⟨s, ss, hs⟩ :=
            List.exists_cons_of_ne_nil (segments_ne_nil (fun a => p (f a)) l)
          have hkeep := segments_cons_keep (p := fun a => p (f a)) ha hs
          rw [hs] at ih
          rw [segments_cons_keep ha ih, hkeep]
          rfl

/-- A list has one segment more than cuts. -/
theorem length_segments (p : α → Bool) (l : List α) :
    (segments p l).length = l.countP p + 1 := by
  induction l with
  | nil => rfl
  | cons a l ih =>
      cases ha : p a with
      | true => rw [segments_cons_cut ha, List.length_cons, ih, List.countP_cons_of_pos ha]
      | false =>
          rw [segments_cons_of_false ha, List.length_modifyHead, ih,
            List.countP_cons_of_neg (Bool.eq_false_iff.mp ha)]

/-- No segment has a cut. -/
theorem eq_false_of_mem_segments {s : List α} (hs : s ∈ segments p l) :
    ∀ a ∈ s, p a = false := by
  induction l generalizing s with
  | nil =>
      rw [segments_nil, List.mem_singleton] at hs
      rw [hs]
      exact fun a ha => absurd ha List.not_mem_nil
  | cons b l ih =>
      by_cases hb : p b = true
      · rw [segments_cons_cut hb, List.mem_cons] at hs
        rcases hs with rfl | hs
        · exact fun a ha => absurd ha List.not_mem_nil
        · exact ih hs
      · rw [Bool.not_eq_true] at hb
        obtain ⟨first, rest, heq⟩ := List.exists_cons_of_ne_nil (segments_ne_nil p l)
        rw [segments_cons_keep hb heq, List.mem_cons] at hs
        rw [heq] at ih
        rcases hs with rfl | hs
        · exact List.forall_mem_cons.mpr ⟨hb, ih List.mem_cons_self⟩
        · exact ih (List.mem_cons_of_mem _ hs)

/-- Joining with a cut and cutting is the identity on segments without cuts. -/
theorem segments_intercalate {c : α} (hc : p c = true) {ls : List (List α)} (hne : ls ≠ [])
    (h : ∀ l ∈ ls, ∀ a ∈ l, p a = false) : segments p ([c].intercalate ls) = ls := by
  induction ls with
  | nil => exact absurd rfl hne
  | cons l ls ih =>
      obtain ⟨hl, hls⟩ := List.forall_mem_cons.mp h
      cases ls with
      | nil => rw [List.intercalate_singleton, segments_eq_singleton hl]
      | cons l' ls =>
          rw [List.intercalate_cons_cons, List.append_assoc, List.singleton_append,
            segments_append_cut hl hc, ih (List.cons_ne_nil _ _) hls]

/-- Of two joined lists one after the other, the last part of the first and the first
part of the second are one part. -/
theorem intercalate_append_cons (sep : List α) (xs : List (List α)) (a b : List α)
    (ys : List (List α)) : sep.intercalate (xs ++ (a ++ b) :: ys) =
      sep.intercalate (xs ++ [a]) ++ sep.intercalate (b :: ys) := by
  induction xs with
  | nil =>
      rw [List.nil_append, List.nil_append, List.intercalate_singleton]
      cases ys with
      | nil => rw [List.intercalate_singleton, List.intercalate_singleton]
      | cons y ys => simp only [List.intercalate_cons_cons, List.append_assoc]
  | cons x xs ih =>
      rw [List.cons_append, List.cons_append, List.intercalate_cons_of_ne_nil (by simp),
        List.intercalate_cons_of_ne_nil (by simp), ih, ← List.append_assoc]

end GoldenTrace
