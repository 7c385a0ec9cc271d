import GoldenTrace.Proofs.Agreement
import GoldenTrace.Proofs.Command.Text
import GoldenTrace.Report
import Mathlib.Data.List.ReduceOption

/-!
# Listings read back

The listing of a failed case sets the expected and the captured steps side by side. No step is
wider than its column, so each column can be cut out again by position, and what stands in the
columns reads back as the two queues. The mark of a row tells whether its steps differ; as equal
queues agree, a failed case has a marked row.
-/

namespace GoldenTrace

/-! ## Widths -/

theorem length_hexLiteral {width n : Nat} (hwidth : 0 < width) (h : n < 16 ^ width) :
    (Text.hexLiteral width n).toList.length = width + 2 := by
  rw [Text.hexLiteral, String.toList_ofList, List.length_cons, List.length_cons,
    Text.length_hex hwidth h]

theorem Target.length_display_le (t : Target) : t.display.toList.length ≤ 11 := by
  cases t with
  | register8 r => cases r <;> decide
  | register16 r => cases r <;> decide
  | memory a =>
      rw [display, String.toList_append, List.length_append,
        length_hexLiteral (by decide) a.toNat_lt]
      decide
  | flag f => cases f <;> decide
  | _ => decide

theorem Value.length_display_le (v : Value) : v.display.toList.length ≤ 6 := by
  cases v with
  | byte v =>
      rw [display, length_hexLiteral (by decide) v.toNat_lt]
      decide
  | word v => exact Nat.le_of_eq (length_hexLiteral (by decide) v.toNat_lt)

/-- No step is wider than its column. -/
theorem Command.length_display_le (c : Command) : c.display.toList.length ≤ 32 := by
  cases c with
  | write w =>
      have htarget := w.target.length_display_le
      have hvalue := w.value.length_display_le
      have hwrite : "WRITE ".toList.length = 6 := by decide
      have hspace : " ".toList.length = 1 := by decide
      simp only [display, Write.display, String.toList_append, List.length_append, hwrite, hspace]
      omega
  | halt => decide
  | suspend s => cases s <;> decide

namespace Listing

/-! ## Rows and what stands in them -/

/-- The mark of a row, behind two spaces. -/
def mark (row : List Char) : Option Char :=
  row[2]?

/-- The left column of a row: 32 characters behind two spaces, the mark and a space. -/
def left (row : List Char) : List Char :=
  (row.drop 4).take 32

/-- The right column of a row: all that is behind the left one and a space. -/
def right (row : List Char) : List Char :=
  row.drop 37

/-- The steps that stand in a column, in the order of the rows. Rows where the column is blank have
none. -/
def readColumn (column : List Char → List Char) (rows : List (List Char)) :
    Except CommandError Queue :=
  ((rows.map column).filter fun text => !text.all Text.isBlank).mapM Command.parse

/-- The line of two steps, either of which may be missing. -/
def line (e a : Option Command) : List Char :=
  ' ' :: ' ' :: (if e = a then ' ' else '*') :: ' ' ::
    ((padRight 32 (cell e)).toList ++ ' ' :: (cell a).toList)

theorem toList_stepRow (e a : Option Command) : (stepRow e a).toList = line e a ++ ['\n'] := by
  have hspaces : "  ".toList = [' ', ' '] := rfl
  have hspace : " ".toList = [' '] := rfl
  have hend : "\n".toList = ['\n'] := rfl
  simp only [stepRow, row, line, columnWidth, String.toList_append, hspaces, hspace, hend,
    Char.toString, String.toList_singleton, List.cons_append, List.nil_append, List.append_assoc]

/-- The rows of a listing, one for each place of the longer queue. -/
theorem rows_eq (e a : Queue) :
    rows e a = (List.range (max e.length a.length)).map fun i => stepRow e[i]? a[i]? := by
  fun_induction rows e a with
  | case1 => rfl
  | case2 e es ih =>
      rw [ih]
      simp [List.range_succ_eq_map]
  | case3 a as ih =>
      rw [ih]
      simp [List.range_succ_eq_map]
  | case4 e es a as ih =>
      rw [ih]
      simp [List.range_succ_eq_map, Nat.succ_max_succ]

/-! ## Columns -/

/-- A text of a column holds the words of a step, or is blank. -/
def Holds (step : Option Command) (text : List Char) : Prop :=
  match step with
  | none => text.all Text.isBlank = true
  | some c => Text.words text = c.words

theorem Command.words_ne_nil (c : Command) : c.words ≠ [] := by
  cases c with
  | write w => exact List.cons_ne_nil _ _
  | halt => exact List.cons_ne_nil _ _
  | suspend s => cases s <;> exact List.cons_ne_nil _ _

theorem Holds.parse {c : Command} {text : List Char} (h : Holds (some c) text) :
    text.all Text.isBlank = false ∧ Command.parse text = .ok c := by
  constructor
  · rw [← Bool.not_eq_true, List.all_eq_true]
    intro hblank
    have hwords := Text.words_append_blanks hblank []
    rw [List.nil_append] at hwords
    exact Command.words_ne_nil c (h.symm.trans hwords)
  · exact Command.parse_of_words h

/-- The steps of a column are those that its texts hold. -/
theorem parse_texts {steps : List (Option Command)} {texts : List (List Char)}
    (h : List.Forall₂ Holds steps texts) :
    (texts.filter fun text => !text.all Text.isBlank).mapM Command.parse =
      .ok steps.reduceOption := by
  induction h with
  | nil => rfl
  | @cons step text steps texts htext _ ih =>
      cases step with
      | none =>
          have hblank : text.all Text.isBlank = true := htext
          rw [List.filter_cons_of_neg (by simp [hblank]), List.reduceOption_cons_of_none]
          exact ih
      | some c =>
          obtain ⟨hblank, hparse⟩ := htext.parse
          rw [List.filter_cons_of_pos (by simp [hblank]), List.reduceOption_cons_of_some,
            List.mapM_cons, hparse, ih]
          rfl

theorem reduceOption_range {n : Nat} {q : Queue} (h : q.length ≤ n) :
    ((List.range n).map fun i => q[i]?).reduceOption = q := by
  induction q generalizing n with
  | nil => simp [List.reduceOption]
  | cons c q ih =>
      obtain ⟨n, rfl⟩ : ∃ m, n = m + 1 := ⟨n - 1, by simp at h; omega⟩
      rw [List.length_cons, Nat.add_le_add_iff_right] at h
      rw [List.range_succ_eq_map, List.map_cons, List.map_map, List.getElem?_cons_zero,
        List.reduceOption_cons_of_some]
      exact congrArg (c :: ·) (ih h)

/-- The column of a queue gives the queue back, however far the rows go on behind it. -/
theorem readColumn_eq {column : List Char → List Char} {row : Nat → List Char} {n : Nat}
    {q : Queue} (hn : q.length ≤ n) (h : ∀ i, Holds q[i]? (column (row i))) :
    readColumn column ((List.range n).map row) = .ok q := by
  have htexts : List.Forall₂ Holds ((List.range n).map fun i => q[i]?)
      (((List.range n).map row).map column) := by
    rw [List.map_map, List.forall₂_map_left_iff, List.forall₂_map_right_iff, List.forall₂_same]
    exact fun i _ => h i
  rw [readColumn, parse_texts htexts, reduceOption_range hn]

theorem length_padRight {width : Nat} {s : String} (h : s.toList.length ≤ width) :
    (padRight width s).toList.length = width := by
  rw [padRight, String.toList_ofList, List.length_append, List.length_replicate,
    ← String.length_toList]
  omega

theorem length_cell_le (step : Option Command) : (cell step).toList.length ≤ 32 := by
  cases step with
  | none => decide
  | some c => exact c.length_display_le

theorem left_line (e a : Option Command) : left (line e a) = (padRight 32 (cell e)).toList :=
  List.take_left' (length_padRight (length_cell_le e))

theorem right_line (e a : Option Command) : right (line e a) = (cell a).toList := by
  have hlength : ((padRight 32 (cell e)).toList ++ [' ']).length = 33 := by
    rw [List.length_append, length_padRight (length_cell_le e)]
    rfl
  have hline : right (line e a) =
      (((padRight 32 (cell e)).toList ++ [' ']) ++ (cell a).toList).drop 33 := by
    rw [List.append_assoc]
    rfl
  rw [hline]
  exact List.drop_left' hlength

/-- Blanks behind a step do not change its words. -/
theorem holds_cell (step : Option Command) {blanks : List Char}
    (h : ∀ c ∈ blanks, Text.isBlank c = true) : Holds step ((cell step).toList ++ blanks) := by
  cases step with
  | none => exact List.all_eq_true.mpr h
  | some c => exact (Text.words_append_blanks h _).trans c.words_display

theorem holds_left (e a : Option Command) : Holds e (left (line e a)) := by
  rw [left_line, padRight, String.toList_ofList]
  refine holds_cell e ?_
  intro c hc
  rw [List.eq_of_mem_replicate hc]
  rfl

theorem holds_right (e a : Option Command) : Holds a (right (line e a)) := by
  rw [right_line, ← List.append_nil (cell a).toList]
  exact holds_cell a fun c hc => absurd hc List.not_mem_nil

/-! ## Marks -/

theorem mark_line (e a : Option Command) : mark (line e a) = some '*' ↔ e ≠ a := by
  have hmark : mark (line e a) = some (if e = a then ' ' else '*') := rfl
  rw [hmark]
  split <;> simp [*]

/-- Queues that do not agree differ somewhere. -/
theorem exists_ne_of_compare {e a : Queue} (h : e.compare a ≠ []) :
    ∃ i < max e.length a.length, e[i]? ≠ a[i]? := by
  by_contra hnone
  push Not at hnone
  have heq : e = a := by
    refine List.ext_getElem? ?_
    intro i
    by_cases hi : i < max e.length a.length
    · exact hnone i hi
    · rw [List.getElem?_eq_none (by omega), List.getElem?_eq_none (by omega)]
  exact h (heq ▸ Queue.compare_equivalence.refl e)

/-- A line is one line. -/
theorem not_mem_line (e a : Option Command) : '\n' ∉ line e a := by
  have hcell : ∀ step, '\n' ∉ (cell step).toList := by
    intro step
    cases step with
    | none => exact List.not_mem_nil
    | some c => exact c.not_mem_display
  have hpad : '\n' ∉ (padRight 32 (cell e)).toList := by
    rw [padRight, String.toList_ofList, List.mem_append, not_or]
    refine ⟨hcell e, ?_⟩
    intro hmem
    cases List.eq_of_mem_replicate hmem
  have hmark : '\n' ≠ if e = a then ' ' else '*' := by
    split <;> decide
  simp [line, hpad, hcell a, hmark]

/-- The lines of a listing behind its header. -/
def lines (e a : Queue) : List (List Char) :=
  (List.range (max e.length a.length)).map fun i => line e[i]? a[i]?

theorem toList_join_rows (e a : Queue) :
    (String.join (rows e a)).toList = (lines e a).flatMap (· ++ ['\n']) := by
  rw [rows_eq, lines, String.toList_join, List.flatMap_map, List.flatMap_map]
  simp only [toList_stepRow]

end Listing

/-- **The listing of a failure loses nothing.** Behind the header, the block of a failed case has a
row for each place of the longer queue. The left column of these rows reads back as the expected
queue and the right one as what was captured; a row is marked exactly if the steps of its place
differ or one of them is missing, and some row is marked. -/
theorem CaseResult.rows_of_fail (c : TestCase) (a : Queue) (h : c.queue.compare a ≠ []) :
    ∃ rows : List (List Char),
      (CaseResult.of c (.ok a)).render.toList =
        ("FAIL " ++ (c.name ++ " (" ++ c.preset.name ++ ")") ++ ": " ++
          ", ".intercalate ((c.queue.compare a).map Mismatch.message) ++ "\n" ++
          Listing.row ' ' "expected" "actual").toList ++ rows.flatMap (· ++ ['\n']) ∧
      (∀ row ∈ rows, '\n' ∉ row ∧ row.take 2 = [' ', ' '] ∧ row[3]? = some ' ') ∧
      rows.length = max c.queue.length a.length ∧
      Listing.readColumn Listing.left rows = .ok c.queue ∧
      Listing.readColumn Listing.right rows = .ok a ∧
      (∀ (i : Nat) (row : List Char), rows[i]? = some row →
        (Listing.mark row = some '*' ↔ c.queue[i]? ≠ a[i]?)) ∧
      ∃ row ∈ rows, Listing.mark row = some '*' := by
  have hmark : ∀ (i : Nat) (row : List Char), (Listing.lines c.queue a)[i]? = some row →
      (Listing.mark row = some '*' ↔ c.queue[i]? ≠ a[i]?) := by
    intro i row hrow
    rw [Listing.lines, List.getElem?_map, Option.map_eq_some_iff] at hrow
    obtain ⟨j, hj, rfl⟩ := hrow
    obtain ⟨-, rfl⟩ := List.getElem?_eq_some_iff.mp hj
    rw [List.getElem_range, Listing.mark_line]
  refine ⟨Listing.lines c.queue a, ?_, ?_, ?_, ?_, ?_, hmark, ?_⟩
  · have hrender : (CaseResult.of c (.ok a)).render = _ := if_neg (mt List.isEmpty_iff.mp h)
    rw [hrender, String.toList_append, Listing.toList_join_rows]
    rfl
  · intro row hrow
    obtain ⟨i, -, rfl⟩ := List.mem_map.mp hrow
    exact ⟨Listing.not_mem_line _ _, rfl, rfl⟩
  · rw [Listing.lines, List.length_map, List.length_range]
  · exact Listing.readColumn_eq (Nat.le_max_left _ _) fun i => Listing.holds_left _ _
  · exact Listing.readColumn_eq (Nat.le_max_right _ _) fun i => Listing.holds_right _ _
  · obtain ⟨i, hi, hne⟩ := Listing.exists_ne_of_compare h
    have hrow : (Listing.lines c.queue a)[i]? = some (Listing.line c.queue[i]? a[i]?) := by
      rw [Listing.lines, List.getElem?_map, List.getElem?_range hi, Option.map_some]
    exact ⟨_, List.mem_of_getElem? hrow, (hmark i _ hrow).mpr hne⟩

/-- A case that expects the bus to be driven with the widest of all steps. -/
def TestCase.busSample : TestCase :=
  ⟨"0xFA", ⟨0xFA0201, 3, 4, .control .nop⟩, .default, none, [.write (.addressBus 0x0102), .halt]⟩

/-- The bus is driven with another address, and a step more is made: the first and the last of the
three rows are marked. -/
theorem CaseResult.rows_of_fail_busSample :
    TestCase.busSample.queue.compare [.write (.addressBus 0x0103), .halt, .suspend .stop] ≠ [] ∧
      ∃ r s t : List Char,
        Listing.readColumn Listing.left [r, s, t] = .ok [.write (.addressBus 0x0102), .halt] ∧
        Listing.readColumn Listing.right [r, s, t] =
          .ok [.write (.addressBus 0x0103), .halt, .suspend .stop] ∧
        Listing.mark r = some '*' ∧ Listing.mark s ≠ some '*' ∧ Listing.mark t = some '*' := by
  have h : TestCase.busSample.queue.compare
      [.write (.addressBus 0x0103), .halt, .suspend .stop] ≠ [] := by
    intro hnil
    cases Queue.compare_eq_nil_iff.mp hnil with
    | cons hfirst _ => exact absurd hfirst.1 (by decide)
  refine ⟨h, ?_⟩
  obtain ⟨rows, -, -, hlength, hleft, hright, hmark, -⟩ := rows_of_fail _ _ h
  obtain ⟨r, s, t, rfl⟩ := List.length_eq_three.mp hlength
  exact ⟨r, s, t, hleft, hright, (hmark 0 r rfl).mpr (by decide),
    (hmark 1 s rfl).not.mpr (by decide), (hmark 2 t rfl).mpr (by decide)⟩

end GoldenTrace
