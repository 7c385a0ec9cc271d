import GoldenTrace.Capture
import GoldenTrace.Proofs.Command.Cycles
import GoldenTrace.Proofs.Command.Text
import Mathlib.Data.List.Forall2

/-!
# What a correct harness prints

A harness that executes a queue prints its steps, one a line, behind the line
that marks the beginning of the trace. It may print anything else around them,
and within a machine cycle it may print the steps in any order. What is
captured from such an output is the queue, up to the order within cycles.
-/

namespace GoldenTrace

/-- The same cycles, but for the order of the steps of each. -/
def Queue.Reordered (q q' : Queue) : Prop :=
  List.Forall₂ List.Perm q.cycles q'.cycles

namespace Capture

/-- A line whose first word is no command word. -/
def Noise (line : List Char) : Prop :=
  '\n' ∉ line ∧ ∀ head rest, Text.words line = head :: rest →
    head ≠ "WRITE".toList ∧ head ≠ "HALT".toList ∧ head ≠ "SUSPEND".toList

/-- The lines of a queue: one for every step, with noise anywhere. -/
inductive Transcript : Queue → List (List Char) → Prop
  | done : Transcript [] []
  | noise {q : Queue} {line : List Char} {lines : List (List Char)} (h : Noise line)
      (rest : Transcript q lines) : Transcript q (line :: lines)
  | step {q : Queue} (c : Command) {lines : List (List Char)} (rest : Transcript q lines) :
      Transcript (c :: q) (c.display.toList :: lines)

/-- The lines of a queue as they may reach a reader: noise anywhere, and blanks
around every step. -/
inductive Listing : Queue → List (List Char) → Prop
  | done : Listing [] []
  | noise {q : Queue} {line : List Char} {lines : List (List Char)} (h : Noise line)
      (rest : Listing q lines) : Listing q (line :: lines)
  | step {q : Queue} (c : Command) {left right : List Char} {lines : List (List Char)}
      (hleft : ∀ x ∈ left, Text.isBlank x = true) (hright : ∀ x ∈ right, Text.isBlank x = true)
      (rest : Listing q lines) : Listing (c :: q) ((left ++ c.display.toList ++ right) :: lines)

/-- The text is what a harness prints that executes the queue: lines that do not
read `TRACE BEGIN`, this line, and then the steps of every cycle in some order,
among noise. -/
def Prints (q : Queue) (text : String) : Prop :=
  ∃ before body q', (∀ line ∈ before, '\n' ∉ line ∧ Text.trim line ≠ "TRACE BEGIN".toList) ∧
    q.Reordered q' ∧ Transcript q' body ∧
    text.toList = ['\n'].intercalate (before ++ "TRACE BEGIN".toList :: body)

/-! ## Lines -/

theorem Noise.isCommandLine {line : List Char} (h : Noise line) :
    isCommandLine line = false := by
  rw [Capture.isCommandLine]
  split
  case h_1 => rfl
  case h_2 head rest hwords =>
    obtain ⟨hwrite, hhalt, hsuspend⟩ := h.2 head rest hwords
    simp only [Bool.or_eq_false_iff, beq_eq_false_iff_ne]
    exact ⟨⟨hwrite, hhalt⟩, hsuspend⟩

/-- A line with the words of a command is taken for one. -/
theorem isCommandLine_of_words {line : List Char} {c : Command}
    (h : Text.words line = c.words) : isCommandLine line = true := by
  rw [isCommandLine, h]
  cases c with
  | write w => rfl
  | halt => rfl
  | suspend s => cases s <;> rfl

theorem Transcript.listing {q : Queue} {lines : List (List Char)} (h : Transcript q lines) :
    Listing q lines := by
  induction h with
  | done => exact .done
  | noise hnoise _ ih => exact .noise hnoise ih
  | step c _ ih =>
      have hstep := @Listing.step _ c [] [] _ (by simp) (by simp) ih
      rwa [List.nil_append, List.append_nil] at hstep

theorem Transcript.not_mem {q : Queue} {lines : List (List Char)} (h : Transcript q lines) :
    ∀ line ∈ lines, '\n' ∉ line := by
  induction h with
  | done => exact fun _ hmem => absurd hmem List.not_mem_nil
  | noise hnoise _ ih => exact List.forall_mem_cons.mpr ⟨hnoise.1, ih⟩
  | step c _ ih => exact List.forall_mem_cons.mpr ⟨c.not_mem_display, ih⟩

/-! ## Reading -/

theorem readLines_noise {line : List Char} (h : isCommandLine line = false) (number : Nat)
    (lines : List (List Char)) :
    readLines number (line :: lines) = readLines (number + 1) lines := by
  rw [readLines, if_neg (by rw [h]; exact Bool.false_ne_true)]

theorem readLines_command {line : List Char} {c : Command} (hline : isCommandLine line = true)
    (hc : Command.parse line = .ok c) (number : Nat) (lines : List (List Char)) :
    readLines number (line :: lines) = (c :: ·) <$> readLines (number + 1) lines := by
  rw [readLines, if_pos hline, hc]

/-- The lines of a queue are read as this queue, wherever they begin. -/
theorem Listing.readLines {q : Queue} {lines : List (List Char)} (h : Listing q lines)
    (number : Nat) : readLines number lines = .ok q := by
  induction h generalizing number with
  | done => rfl
  | noise hnoise _ ih => rw [readLines_noise hnoise.isCommandLine, ih]
  | @step q c left right lines hleft hright _ ih =>
      have hwords : Text.words (left ++ c.display.toList ++ right) = c.words := by
        rw [Text.words_append_blanks hright, Text.words_blanks_append hleft,
          Command.words_display]
      rw [readLines_command (isCommandLine_of_words hwords) (Command.parse_of_words hwords), ih]
      rfl

/-- Everything before the marker is passed over. -/
theorem findTrace_append {before body : List (List Char)} {mark : List Char}
    (h : ∀ line ∈ before, Text.trim line ≠ marker) (hmark : Text.trim mark = marker)
    (number : Nat) :
    findTrace number (before ++ mark :: body) =
      readLines (number + before.length + 1) body := by
  induction before generalizing number with
  | nil =>
      have hmark : isMarker mark = true := by
        rw [isMarker, hmark]
        exact beq_self_eq_true marker
      rw [List.nil_append, findTrace, if_pos hmark]
      rfl
  | cons line before ih =>
      obtain ⟨hline, hbefore⟩ := List.forall_mem_cons.mp h
      have hnot : ¬ isMarker line = true := by
        rw [isMarker, beq_iff_eq]
        exact hline
      rw [List.cons_append, findTrace, if_neg hnot, ih hbefore, List.length_cons,
        Nat.add_assoc number 1, Nat.add_comm 1]

/-- What is captured from the output of a correct harness. -/
theorem parse_of_prints {q : Queue} {text : String} (h : Prints q text) :
    ∃ q', q.Reordered q' ∧ parse text = .ok q' := by
  obtain ⟨before, body, q', hbefore, hreordered, hbody, htext⟩ := h
  have hlines : Text.lines text.toList = before ++ marker :: body := by
    rw [htext]
    refine Text.lines_intercalate (by simp) ?_
    rw [List.forall_mem_append, List.forall_mem_cons]
    exact ⟨fun line hline => (hbefore line hline).1, by decide, hbody.not_mem⟩
  refine ⟨q', hreordered, ?_⟩
  rw [parse, hlines, findTrace_append (fun line hline => (hbefore line hline).2) (by decide)]
  exact hbody.listing.readLines _

/-! ## A harness -/

/-- The output of a harness that greets, prints the steps of every cycle
backwards and takes its leave. -/
def backwards (q : Queue) : String :=
  String.ofList (['\n'].intercalate (["connected".toList] ++ marker ::
    (([Command.halt].intercalate (q.cycles.map List.reverse)).map fun c => c.display.toList) ++
      ["(gdb) HALT".toList, []]))

theorem Transcript.append_noise {q : Queue} {lines tail : List (List Char)}
    (h : Transcript q lines) (htail : Transcript [] tail) : Transcript q (lines ++ tail) := by
  induction h with
  | done => exact htail
  | noise hnoise _ ih => exact .noise hnoise ih
  | step c _ ih => exact .step c ih

theorem transcript_map (q : Queue) : Transcript q (q.map fun c => c.display.toList) := by
  induction q with
  | nil => exact .done
  | cons c q ih => exact .step c ih

theorem reordered_reverse (q : Queue) :
    q.Reordered ([Command.halt].intercalate (q.cycles.map List.reverse)) := by
  have hcycles : Queue.cycles ([Command.halt].intercalate (q.cycles.map List.reverse)) =
      q.cycles.map List.reverse := by
    have hne : q.cycles.map List.reverse ≠ [] :=
      fun h => q.cycles_ne_nil (List.map_eq_nil_iff.mp h)
    refine Queue.cycles_intercalate hne ?_
    intro c hc hmem
    obtain ⟨d, hd, rfl⟩ := List.mem_map.mp hc
    exact Queue.halt_not_mem_of_mem_cycles hd (List.mem_reverse.mp hmem)
  rw [Queue.Reordered, hcycles, List.forall₂_map_right_iff, List.forall₂_same]
  exact fun c _ => (List.reverse_perm c).symm

/-- A command word that is not the first word of a line makes no command. -/
theorem noise_prompt : Noise "(gdb) HALT".toList := by
  refine ⟨by decide, ?_⟩
  rintro head rest hwords
  have hhead : head = "(gdb)".toList := (List.cons.inj hwords).1.symm
  rw [hhead]
  decide

theorem prints_backwards (q : Queue) : Prints q (backwards q) := by
  have hblank : Noise [] := ⟨List.not_mem_nil, fun _ _ hwords => by cases hwords⟩
  refine ⟨["connected".toList], _, _, ?_, reordered_reverse q,
    (transcript_map _).append_noise (.noise noise_prompt (.noise hblank .done)), ?_⟩
  · rw [List.forall_mem_singleton]
    decide
  · rw [backwards, String.toList_ofList]
    rfl

end Capture

end GoldenTrace
