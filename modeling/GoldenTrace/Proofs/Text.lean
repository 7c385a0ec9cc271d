import GoldenTrace.Proofs.Segments
import GoldenTrace.Text.Blank

/-!
# Lines and words of a joined text

Lines joined by line feeds and words joined by spaces are found again as the
segments they were joined from.
-/

namespace GoldenTrace

namespace Text

theorem lines_intercalate {ls : List (List Char)} (hne : ls ≠ []) (h : ∀ l ∈ ls, '\n' ∉ l) :
    lines (['\n'].intercalate ls) = ls := by
  refine segments_intercalate rfl hne ?_
  intro l hl c hc
  rw [beq_eq_false_iff_ne]
  rintro rfl
  exact h l hl hc

/-- Whether a word is not empty and holds no blank. -/
def solid (w : List Char) : Bool :=
  !w.isEmpty && w.all fun c => !isBlank c

theorem solid_iff {w : List Char} : solid w = true ↔ w ≠ [] ∧ ∀ c ∈ w, isBlank c = false := by
  simp [solid]

theorem words_intercalate {ws : List (List Char)} (h : ws.all solid = true) :
    words ([' '].intercalate ws) = ws := by
  rw [List.all_eq_true] at h
  cases ws with
  | nil => rfl
  | cons w ws =>
      have hsegments : segments isBlank ([' '].intercalate (w :: ws)) = w :: ws :=
        segments_intercalate rfl (List.cons_ne_nil _ _) fun v hv => (solid_iff.mp (h v hv)).2
      -- no segment is empty, so none is dropped
      rw [words, hsegments, List.filter_eq_self]
      intro v hv
      simp [(solid_iff.mp (h v hv)).1]

/-- Words joined by spaces are one line. -/
theorem not_mem_intercalate {ws : List (List Char)} (h : ws.all solid = true) :
    '\n' ∉ [' '].intercalate ws := by
  induction ws with
  | nil => exact List.not_mem_nil
  | cons w ws ih =>
      obtain ⟨hw, hws⟩ := Bool.and_eq_true_iff.mp (List.all_cons ▸ h)
      have hline : '\n' ∉ w := by
        intro hmem
        cases (solid_iff.mp hw).2 _ hmem
      cases ws with
      | nil => rwa [List.intercalate_singleton]
      | cons w' ws =>
          simp only [List.intercalate_cons_cons, List.mem_append, List.mem_singleton, not_or]
          exact ⟨⟨hline, by decide⟩, ih hws⟩

/-! ## Blanks around a line -/

/-- A blank anywhere separates the words before it from those after it. -/
theorem words_append_cons_blank {c : Char} (hc : isBlank c = true) (l r : List Char) :
    words (l ++ c :: r) = words l ++ words r := by
  rw [words, segments_append_cons_cut hc, List.filter_append]
  rfl

theorem words_blanks_append {left : List Char} (h : ∀ c ∈ left, isBlank c = true)
    (l : List Char) : words (left ++ l) = words l := by
  induction left with
  | nil => rfl
  | cons c left ih =>
      obtain ⟨hc, hleft⟩ := List.forall_mem_cons.mp h
      have hdrop : words (c :: (left ++ l)) = words (left ++ l) :=
        words_append_cons_blank hc [] (left ++ l)
      rw [List.cons_append, hdrop, ih hleft]

theorem words_append_blanks {right : List Char} (h : ∀ c ∈ right, isBlank c = true)
    (l : List Char) : words (l ++ right) = words l := by
  cases right with
  | nil => rw [List.append_nil]
  | cons c right =>
      obtain ⟨hc, hright⟩ := List.forall_mem_cons.mp h
      have hnone : words right = [] := by
        have hwords := words_blanks_append hright []
        rwa [List.append_nil] at hwords
      rw [words_append_cons_blank hc, hnone, List.append_nil]

/-! ## All texts of the same words -/

/-- A text is the blanks and the words it is written with. A word ends where the text
does or where a blank follows. -/
inductive Spaced : List Char → List (List Char) → Prop where
  | nil : Spaced [] []
  | blank {c : Char} {cs : List Char} {ws : List (List Char)} :
      isBlank c = true → Spaced cs ws → Spaced (c :: cs) ws
  | last {w : List Char} : solid w = true → Spaced w [w]
  | word {w : List Char} {c : Char} {cs : List Char} {ws : List (List Char)} :
      solid w = true → isBlank c = true → Spaced cs ws → Spaced (w ++ c :: cs) (w :: ws)

theorem words_solid {w : List Char} (h : solid w = true) : words w = [w] := by
  obtain ⟨hne, hsolid⟩ := solid_iff.mp h
  rw [words, segments_eq_singleton hsolid, List.filter_cons_of_pos (by simpa using hne),
    List.filter_nil]

theorem words_of_spaced {cs : List Char} {ws : List (List Char)} (h : Spaced cs ws) :
    words cs = ws := by
  induction h with
  | nil => rfl
  | blank hc _ ih => exact (words_append_cons_blank hc [] _).trans ih
  | last hw => exact words_solid hw
  | word hw hc _ ih => rw [words_append_cons_blank hc, words_solid hw, ih, List.singleton_append]

theorem solid_singleton {c : Char} (h : isBlank c = false) : solid [c] = true := by
  rw [solid, List.all_cons, h]
  rfl

theorem solid_cons {c : Char} {w : List Char} (hc : isBlank c = false) (hw : solid w = true) :
    solid (c :: w) = true := by
  obtain ⟨-, hsolid⟩ := solid_iff.mp hw
  exact solid_iff.mpr ⟨List.cons_ne_nil c w, List.forall_mem_cons.mpr ⟨hc, hsolid⟩⟩

/-- A character that is no blank begins a word, or makes the word after it longer. -/
theorem exists_spaced (cs : List Char) : ∃ ws, Spaced cs ws := by
  induction cs with
  | nil => exact ⟨[], .nil⟩
  | cons c cs ih =>
      obtain ⟨ws, h⟩ := ih
      by_cases hc : isBlank c = true
      · exact ⟨ws, .blank hc h⟩
      rw [Bool.not_eq_true] at hc
      cases h with
      | nil => exact ⟨[[c]], .last (solid_singleton hc)⟩
      | blank hblank h => exact ⟨[c] :: ws, .word (solid_singleton hc) hblank h⟩
      | last hw => exact ⟨[c :: cs], .last (solid_cons hc hw)⟩
      | word hw hblank h => exact ⟨_, .word (solid_cons hc hw) hblank h⟩

theorem words_eq_iff {cs : List Char} {ws : List (List Char)} : words cs = ws ↔ Spaced cs ws := by
  constructor
  · intro h
    obtain ⟨ws', h'⟩ := exists_spaced cs
    rwa [← h, words_of_spaced h']
  · exact words_of_spaced

end Text

end GoldenTrace
