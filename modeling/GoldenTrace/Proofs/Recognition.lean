import Mathlib.Data.List.TakeWhile
import GoldenTrace.Proofs.Recording

/-!
# Which lines are taken for commands

A command is read in either case of letters, but in a trace only a line whose first
word is a command word in capitals is read at all. What is captured is therefore the
commands of the lines that begin in capitals, in their order. A line that begins
otherwise is passed over like noise, also if it reads as a command.
-/

namespace GoldenTrace

/-- Filtering beforehand makes no difference exactly if it leaves out nothing that
has a value. -/
theorem filterMap_filter_eq_iff {α β : Type} {f : α → Option β} {p : α → Bool} {l : List α} :
    (l.filter p).filterMap f = l.filterMap f ↔ ∀ a ∈ l, (f a).isSome = true → p a = true := by
  induction l with
  | nil => simp
  | cons a l ih =>
      rw [List.forall_mem_cons, ← ih]
      by_cases hp : p a = true
      · rw [List.filter_cons_of_pos hp]
        cases hf : f a with
        | none => simp [hf]
        | some b => simp [hf, hp]
      · rw [List.filter_cons_of_neg hp]
        cases hf : f a with
        | none => simp [hf]
        | some b =>
            rw [List.filterMap_cons_some hf]
            simp only [hp, Option.isSome_some, true_implies, Bool.false_eq_true, false_and,
              iff_false]
            intro heq
            -- without `a` there is one value less
            have hle := (List.filter_sublist (p := p) (l := l)).filterMap f |>.length_le
            rw [heq, List.length_cons] at hle
            omega

namespace Text

/-- The blanks at either end of a text separate no words. -/
theorem words_trim (cs : List Char) : words (trim cs) = words cs := by
  have hfront : words (cs.dropWhile isBlank) = words cs := by
    have hsplit := List.takeWhile_append_dropWhile (p := isBlank) (l := cs)
    rw [← words_blanks_append (fun c hc => List.mem_takeWhile_imp hc) (cs.dropWhile isBlank),
      hsplit]
  have hback : ∀ ds : List Char, words (ds.reverse.dropWhile isBlank).reverse = words ds := by
    intro ds
    have hsplit := congrArg List.reverse
      (List.takeWhile_append_dropWhile (p := isBlank) (l := ds.reverse))
    rw [List.reverse_append, List.reverse_reverse] at hsplit
    have hblank : ∀ c ∈ (ds.reverse.takeWhile isBlank).reverse, isBlank c = true := by
      intro c hc
      exact List.mem_takeWhile_imp (List.mem_reverse.mp hc)
    rw [← words_append_blanks hblank, hsplit]
  rw [trim, hback, hfront]

end Text

namespace Command

/-- The words that a command may begin with. -/
def Keyword (word : Word) : Prop :=
  word = "WRITE".toList ∨ word = "HALT".toList ∨ word = "SUSPEND".toList

theorem parse_trim (line : List Char) : parse (Text.trim line) = parse line := by
  rw [parse, parse, Text.words_trim]

/-- A command begins with a keyword, in whatever case of letters. -/
theorem exists_keyword_of_parse {line : List Char} {c : Command} (h : parse line = .ok c) :
    ∃ head rest, Text.words line = head :: rest ∧ Keyword (Text.upper head) := by
  have hkeyword : ∀ {head : Word} {s : String}, String.ofList (Text.upper head) = s →
      Text.upper head = s.toList := by
    rintro head s rfl
    exact String.toList_ofList.symm
  rw [parse, parseWords] at h
  cases hwords : Text.words line with
  | nil =>
      rw [hwords] at h
      cases h
  | cons head rest =>
      refine ⟨head, rest, rfl, ?_⟩
      by_cases hhalt : String.ofList (Text.upper head) = "HALT"
      · exact Or.inr (Or.inl (hkeyword hhalt))
      · by_cases hsuspend : String.ofList (Text.upper head) = "SUSPEND"
        · exact Or.inr (Or.inr (hkeyword hsuspend))
        · by_cases hwrite : String.ofList (Text.upper head) = "WRITE"
          · exact Or.inl (hkeyword hwrite)
          · simp only [hwords, parseHead, if_neg hhalt, if_neg hsuspend, if_neg hwrite] at h
            cases h

end Command

namespace Capture

/-- The first word of the line has no small letters. -/
def inCapitals (line : List Char) : Bool :=
  (Text.words line).head?.all fun head => Text.upper head == head

/-- The command that a line is without the blanks around it, if it is one. -/
def command? (line : List Char) : Option Command :=
  (Command.parse (Text.trim line)).toOption

theorem command?_eq_some_iff {line : List Char} {c : Command} :
    command? line = some c ↔ Command.parse line = .ok c := by
  rw [command?, Command.parse_trim]
  cases Command.parse line with
  | ok d => simp [Except.toOption]
  | error e => simp [Except.toOption]

/-- A line that is a command is taken for one exactly if it begins in capitals. -/
theorem isCommandLine_eq_inCapitals {line : List Char} (h : (command? line).isSome = true) :
    isCommandLine line = inCapitals line := by
  obtain ⟨c, hc⟩ := Option.isSome_iff_exists.mp h
  obtain ⟨head, rest, hwords, hkeyword⟩ :=
    Command.exists_keyword_of_parse (command?_eq_some_iff.mp hc)
  rw [Bool.eq_iff_iff, isCommandLine_iff, inCapitals, hwords]
  simp only [List.head?_cons, Option.all_some, beq_iff_eq]
  constructor
  · rintro ⟨_, _, hcons, hhead⟩
    obtain ⟨rfl, -⟩ := List.cons.inj hcons
    rcases hhead with rfl | rfl | rfl <;> decide
  · intro hupper
    rw [Command.Keyword, hupper] at hkeyword
    exact ⟨head, rest, rfl, hkeyword⟩

/-! ## Reading a trace -/

theorem eq_of_readLines {lines : List (List Char)} {number : Nat} {q : Queue}
    (h : readLines number lines = .ok q) : q = (lines.filter isCommandLine).filterMap command? := by
  induction lines generalizing number q with
  | nil =>
      cases h
      rfl
  | cons line lines ih =>
      cases hline : isCommandLine line with
      | false =>
          rw [readLines_noise hline] at h
          rw [List.filter_cons_of_neg (by rw [hline]; exact Bool.false_ne_true), ← ih h]
      | true =>
          rw [List.filter_cons_of_pos hline]
          cases hparse : Command.parse line with
          | error e =>
              rw [readLines, if_pos hline, hparse] at h
              cases h
          | ok c =>
              rw [readLines_command hline hparse] at h
              cases hrest : readLines (number + 1) lines with
              | error e =>
                  rw [hrest] at h
                  cases h
              | ok r =>
                  rw [hrest] at h
                  cases h
                  rw [List.filterMap_cons_some (command?_eq_some_iff.mpr hparse), ← ih hrest]

/-- What is read stands behind the first marker. -/
theorem exists_marker_of_findTrace {lines : List (List Char)} {number : Nat} {q : Queue}
    (h : findTrace number lines = .ok q) :
    ∃ before mark body, lines = before ++ mark :: body ∧
      (∀ line ∈ before, Text.trim line ≠ marker) ∧ Text.trim mark = marker ∧
      ∃ number, readLines number body = .ok q := by
  induction lines generalizing number with
  | nil => cases h
  | cons line lines ih =>
      rw [findTrace] at h
      split at h
      case isTrue hmark =>
        exact ⟨[], line, lines, rfl, by simp, beq_iff_eq.mp hmark, number + 1, h⟩
      case isFalse hmark =>
        obtain ⟨before, mark, body, rfl, hbefore, hmarker, hbody⟩ := ih h
        refine ⟨line :: before, mark, body, rfl, ?_, hmarker, hbody⟩
        exact List.forall_mem_cons.mpr ⟨fun heq => hmark (beq_iff_eq.mpr heq), hbefore⟩

/-- **What a trace has.** If a trace is captured, it has the commands of the lines
behind the marker that begin in capitals, one for each and in their order. These are
all lines behind the marker that read as commands exactly if all of those begin in
capitals. -/
theorem commands_of_parse {text : String} {q : Queue} (h : parse text = .ok q) :
    ∃ before mark body, Text.lines text.toList = before ++ mark :: body ∧
      (∀ line ∈ before, Text.trim line ≠ "TRACE BEGIN".toList) ∧
      Text.trim mark = "TRACE BEGIN".toList ∧
      q = (body.filter inCapitals).filterMap command? ∧
      (q = body.filterMap command? ↔
        ∀ line ∈ body, (command? line).isSome = true → inCapitals line = true) := by
  obtain ⟨before, mark, body, hlines, hbefore, hmark, number, hbody⟩ :=
    exists_marker_of_findTrace h
  have hq : q = (body.filter inCapitals).filterMap command? := by
    rw [eq_of_readLines hbody, List.filterMap_filter, List.filterMap_filter]
    refine List.filterMap_congr ?_
    intro line _
    -- where the two tests differ, the line is no command
    by_cases hcommand : (command? line).isSome = true
    · rw [isCommandLine_eq_inCapitals hcommand]
    · rw [Option.not_isSome_iff_eq_none.mp hcommand, ite_self, ite_self]
  refine ⟨before, mark, body, hlines, hbefore, hmark, hq, ?_⟩
  rw [hq, filterMap_filter_eq_iff]

/-- A session whose commands begin in capitals: they are all captured. -/
theorem commands_of_parse_session :
    parse "TRACE BEGIN\n  WRITE reg8 b 12\n(gdb) step\nHALT" =
        .ok [.write (.register8 .b 12), .halt] ∧
      ∃ before mark body, Text.lines
          "TRACE BEGIN\n  WRITE reg8 b 12\n(gdb) step\nHALT".toList = before ++ mark :: body ∧
        [.write (.register8 .b 12), .halt] = (body.filter inCapitals).filterMap command? := by
  have hparse : parse "TRACE BEGIN\n  WRITE reg8 b 12\n(gdb) step\nHALT" =
      .ok [.write (.register8 .b 12), .halt] := by decide
  obtain ⟨before, mark, body, hlines, -, -, hq, -⟩ := commands_of_parse hparse
  exact ⟨hparse, before, mark, body, hlines, hq⟩

/-- The line behind the marker is a write to a register, but it begins in small
letters and is not captured. -/
theorem parse_passes_over_small_letters :
    parse "TRACE BEGIN\nwrite reg8 b 12\nHALT\n" = .ok [.halt] ∧
      Text.lines "TRACE BEGIN\nwrite reg8 b 12\nHALT\n".toList =
        ["TRACE BEGIN".toList, "write reg8 b 12".toList, "HALT".toList, []] ∧
      command? "write reg8 b 12".toList = some (.write (.register8 .b 12)) := by
  refine ⟨?_, ?_, ?_⟩ <;> decide

end Capture

end GoldenTrace
