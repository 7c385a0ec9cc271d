import GoldenTrace.Proofs.Capture

/-!
# Reading a recorded output

The output of a harness is read back as the queue whose steps it lists, in
whatever output this list stands: behind any lines that are no marker, among
noise, with blanks around its lines. If a line behind the marker begins like a
command and is none, reading fails at the first such line and says where in the
output it stands.
-/

namespace GoldenTrace.Capture

/-- A text of the given lines. The last one may end in a line feed like the
others. -/
def TextOf (lines : List (List Char)) (text : String) : Prop :=
  text.toList = ['\n'].intercalate lines ∨ text.toList = ['\n'].intercalate lines ++ ['\n']

/-- A line whose first word is a command word, but which is no command. -/
structure Faulty (line : List Char) (e : CommandError) : Prop where
  head : ∃ head rest, Text.words line = head :: rest ∧
    (head = "WRITE".toList ∨ head = "HALT".toList ∨ head = "SUSPEND".toList)
  error : Command.parse line = .error e

/-! ## Lines -/

/-- A line feed at the end of a text makes an empty last line, which is noise. -/
theorem TextOf.lines {lines : List (List Char)} {text : String} (h : TextOf lines text)
    (hne : lines ≠ []) (hlines : ∀ line ∈ lines, '\n' ∉ line) :
    ∃ blank, Listing [] blank ∧ Text.lines text.toList = lines ++ blank := by
  rcases h with htext | htext
  · refine ⟨[], .done, ?_⟩
    rw [htext, Text.lines_intercalate hne hlines, List.append_nil]
  · refine ⟨[[]], .noise ⟨List.not_mem_nil, fun _ _ hwords => by cases hwords⟩ .done, ?_⟩
    have hcut : Text.lines (['\n'].intercalate lines ++ ['\n']) =
        Text.lines (['\n'].intercalate lines) ++ [[]] := segments_append_cons_cut rfl _ []
    rw [htext, hcut, Text.lines_intercalate hne hlines]

theorem isCommandLine_iff {line : List Char} :
    isCommandLine line = true ↔ ∃ head rest, Text.words line = head :: rest ∧
      (head = "WRITE".toList ∨ head = "HALT".toList ∨ head = "SUSPEND".toList) := by
  rw [isCommandLine]
  split
  case h_1 hwords => simp [hwords]
  case h_2 head rest hwords => simp [hwords, or_assoc]

theorem Listing.append {q : Queue} {lines blank : List (List Char)} (h : Listing q lines)
    (hblank : Listing [] blank) : Listing q (lines ++ blank) := by
  induction h with
  | done => exact hblank
  | noise hnoise _ ih => exact .noise hnoise ih
  | step c hleft hright _ ih => exact .step c hleft hright ih

/-! ## The first fault -/

/-- Reading goes on through lines without fault and stops at the first fault,
counting every line. -/
theorem readLines_faulty {good rest : List (List Char)} {bad : List Char} {e : CommandError}
    (hgood : ∀ line ∈ good, ∀ e, ¬ Faulty line e) (hbad : Faulty bad e) (number : Nat) :
    readLines number (good ++ bad :: rest) = .error (.line (number + good.length) e) := by
  induction good generalizing number with
  | nil =>
      rw [List.nil_append, readLines, if_pos (isCommandLine_iff.mpr hbad.head), hbad.error]
      rfl
  | cons line good ih =>
      obtain ⟨hline, hgood⟩ := List.forall_mem_cons.mp hgood
      have hcount : number + 1 + good.length = number + (line :: good).length := by
        rw [List.length_cons]
        omega
      rw [List.cons_append, ← hcount]
      cases hcommand : isCommandLine line with
      | false => rw [readLines_noise hcommand, ih hgood]
      | true =>
          cases hparse : Command.parse line with
          | error e => exact absurd ⟨isCommandLine_iff.mp hcommand, hparse⟩ (hline e)
          | ok c =>
              rw [readLines_command hcommand hparse, ih hgood]
              rfl

/-- Among lines with a fault there is a first one. -/
theorem exists_first_faulty {body : List (List Char)}
    (h : ∃ line ∈ body, ∃ e, Faulty line e) :
    ∃ good bad rest e, body = good ++ bad :: rest ∧ (∀ line ∈ good, ∀ e, ¬ Faulty line e) ∧
      Faulty bad e := by
  induction body with
  | nil =>
      obtain ⟨_, hmem, -⟩ := h
      cases hmem
  | cons line body ih =>
      by_cases hline : ∃ e, Faulty line e
      · obtain ⟨e, he⟩ := hline
        exact ⟨[], line, body, e, rfl, fun _ hmem => absurd hmem List.not_mem_nil, he⟩
      · obtain ⟨other, hother, e, he⟩ := h
        have hrest : other ∈ body :=
          (List.mem_cons.mp hother).resolve_left fun heq => hline ⟨e, heq ▸ he⟩
        obtain ⟨good, bad, rest, e', rfl, hgood, hbad⟩ := ih ⟨other, hrest, e, he⟩
        refine ⟨line :: good, bad, rest, e', rfl, ?_, hbad⟩
        exact List.forall_mem_cons.mpr ⟨fun e he => hline ⟨e, he⟩, hgood⟩

/-- **Recorded outputs.** Let an output consist of lines that are no marker, a
marker, and a body. If the body lists a queue, this queue is read. If a line of
the body is faulty, reading fails at the first that is, with its place among the
lines of the whole output, counted from one. -/
theorem parse_textOf {before body : List (List Char)} {mark : List Char} {text : String}
    (htext : TextOf (before ++ mark :: body) text)
    (hlines : ∀ line ∈ before ++ mark :: body, '\n' ∉ line)
    (hbefore : ∀ line ∈ before, Text.trim line ≠ "TRACE BEGIN".toList)
    (hmark : Text.trim mark = "TRACE BEGIN".toList) :
    (∀ q, Listing q body → parse text = .ok q) ∧
    ((∃ line ∈ body, ∃ e, Faulty line e) →
      ∃ good bad rest e, body = good ++ bad :: rest ∧ (∀ line ∈ good, ∀ e, ¬ Faulty line e) ∧
        Faulty bad e ∧ parse text = .error (.line ((before ++ mark :: good).length + 1) e)) := by
  obtain ⟨blank, hblank, htext⟩ := htext.lines (by simp) hlines
  have hparse : parse text = readLines (1 + before.length + 1) (body ++ blank) := by
    rw [parse, htext, List.append_assoc, List.cons_append, findTrace_append hbefore hmark]
  constructor
  · intro q hq
    rw [hparse]
    exact (hq.append hblank).readLines _
  · intro hfaulty
    obtain ⟨good, bad, rest, e, rfl, hgood, hbad⟩ := exists_first_faulty hfaulty
    refine ⟨good, bad, rest, e, rfl, hgood, hbad, ?_⟩
    have hcount : 1 + before.length + 1 + good.length = (before ++ mark :: good).length + 1 := by
      rw [List.length_append, List.length_cons]
      omega
    rw [hparse, List.append_assoc, List.cons_append, readLines_faulty hgood hbad, hcount]

/-- A session whose trace lists two writes and the end of a cycle, and one whose
trace has a write of a word to a byte register in the second line, the fifth of
the output. -/
theorem parse_textOf_session :
    parse "attach 4242\nHALT\n  TRACE BEGIN\r\nWRITE PC 0x0001\n\tWRITE IR 0x0F \n(gdb) HALT\nHALT\n" =
      .ok [.write (.pc 1), .write (.ir 0x0F), .halt] ∧
    ∃ good bad rest e, ["HALT".toList, "WRITE REG8 A 0x1234".toList, "SUSPEND".toList] =
        good ++ bad :: rest ∧ (∀ line ∈ good, ∀ e, ¬ Faulty line e) ∧ Faulty bad e ∧
      parse "attach 4242\nHALT\nTRACE BEGIN\nHALT\nWRITE REG8 A 0x1234\nSUSPEND" =
        .error (.line ((["attach 4242".toList, "HALT".toList] ++
          "TRACE BEGIN".toList :: good).length + 1) e) := by
  have hpc : (Command.write (.pc 1)).display = "WRITE PC 0x0001" := by decide +kernel
  have hir : (Command.write (.ir 0x0F)).display = "WRITE IR 0x0F" := by decide +kernel
  have hlisting : Listing [.write (.pc 1), .write (.ir 0x0F), .halt]
      ["WRITE PC 0x0001".toList, "\tWRITE IR 0x0F ".toList, "(gdb) HALT".toList,
        "HALT".toList] := by
    have hlast := @Listing.step [] .halt [] [] _ (by simp) (by simp) .done
    have hmiddle := @Listing.step _ (.write (.ir 0x0F)) ['\t'] [' '] _
      (List.forall_mem_singleton.mpr rfl) (List.forall_mem_singleton.mpr rfl)
      (.noise noise_prompt hlast)
    have hfirst := @Listing.step _ (.write (.pc 1)) [] [] _ (by simp) (by simp) hmiddle
    rwa [hpc, hir] at hfirst
  constructor
  · exact (@parse_textOf ["attach 4242".toList, "HALT".toList] _ "  TRACE BEGIN\r".toList _
      (Or.inr rfl) (by decide) (by decide) (by decide)).1 _ hlisting
  · refine (@parse_textOf ["attach 4242".toList, "HALT".toList] _ "TRACE BEGIN".toList _
      (Or.inl rfl) (by decide) (by decide) (by decide)).2 ?_
    exact ⟨"WRITE REG8 A 0x1234".toList, by simp, .widthMismatch (.register8 .a),
      ⟨_, _, rfl, Or.inl rfl⟩, by decide⟩

end GoldenTrace.Capture
