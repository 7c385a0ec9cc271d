import GoldenTrace.Proofs.Directory
import GoldenTrace.Proofs.Standing

/-!
# Generation is all or nothing

A generation reads one file, and writes one only when nothing can fail any more but the writing
itself. So a session that fails before leaves all files as they were, and one that succeeds has
put the whole fixture into the output, where the input may have been.
-/

namespace GoldenTrace

/-- The text of a fixture ends in one line feed, behind a brace. -/
theorem Fixture.exists_render_eq (layout : Json.Layout) (f : Fixture) :
    ∃ body, (f.render layout).toList = body ++ ['\x7d', '\n'] := by
  have hwrite : ∃ body, Json.write layout 0 f.toJson = body ++ ['\x7d'] := ⟨_, rfl⟩
  obtain ⟨body, hbody⟩ := hwrite
  refine ⟨body, ?_⟩
  rw [render, String.toList_append, Json.render, String.toList_ofList, hbody, List.append_assoc]
  rfl

namespace CommandLine

variable {launch : Launch (StateM Directory)} {d : Directory} {input output : String}
  {options : BatchOptions} {layout : Json.Layout}

theorem generate_of_error {reason : String}
    (h : fixtureOf input options (d.contents input) = .error reason) :
    (generate (Directory.hostWith launch) input output options layout).run d =
      (.failed reason, d) := by
  have hread : ((Directory.hostWith launch).readFile input).run d = (d.contents input, d) := rfl
  rw [generate, run_bind_of_run_eq hread, h]
  rfl

theorem generate_of_ok {f : Fixture} {written : Directory}
    (h : fixtureOf input options (d.contents input) = .ok f)
    (hwrite : d.write output (Text.encode (f.render layout)) = some written) :
    (generate (Directory.hostWith launch) input output options layout).run d =
      (⟨"", .success⟩, written) := by
  have hread : ((Directory.hostWith launch).readFile input).run d = (d.contents input, d) := rfl
  have hget : (get : StateM Directory Directory).run d = (d, d) := rfl
  have hwritten : ((Directory.hostWith launch).writeFile output
      (Text.encode (f.render layout))).run d = (true, written) := by
    rw [Directory.hostWith, Directory.actions, run_bind_of_run_eq hget, hwrite]
    rfl
  rw [generate, run_bind_of_run_eq hread, h, run_bind_of_run_eq hwritten]
  rfl

theorem session_of_parse {m : Type → Type} [Monad m] {host : Host m} {args : List String}
    {request : Request} (h : parse args = .ok request) :
    session host args = perform host request := by
  rw [session, h]

/-- A file holds the fixture, and all other files and the directories are as they were. -/
structure Holds (after before : Directory) (output : String) (f : Fixture)
    (layout : Json.Layout) : Prop where
  file : after.contents output = some (Text.encode (f.render layout))
  text : after.read output = some (f.render layout)
  loaded : (after.contents output).map Fixture.parseBytes = some (.ok f)
  /-- The text is one JSON object and one line feed behind it. -/
  newline : ∃ body, (f.render layout).toList = body ++ ['\x7d', '\n']
  others : ∀ path, before.resolve path ≠ before.resolve output →
    after.contents path = before.contents path
  directories : after.isDirectory = before.isDirectory

theorem holds_of_write {f : Fixture} {written : Directory}
    (h : d.write output (Text.encode (f.render layout)) = some written) :
    Holds written d output f layout := by
  obtain ⟨hcontents, hdirectories⟩ := Directory.contents_of_write h
  have hfile : written.contents output = some (Text.encode (f.render layout)) := by
    rw [hcontents, if_pos rfl]
  refine ⟨hfile, ?text, ?loaded, f.exists_render_eq layout, ?others, hdirectories⟩
  case text => rw [Directory.read, hfile, Option.map_some, Text.decodeLossy_encode]
  case loaded => rw [hfile, Option.map_some, Fixture.parseBytes_render]
  case others =>
    intro path hpath
    rw [hcontents, if_neg hpath]

/-- **Generation is all or nothing.** If the input cannot be read or holds no descriptors, or the
batch ends in an error, the session fails and the directory is as it was. Otherwise, if the output
can be written, the session succeeds, the output holds the fixture of the report and is read back
as this fixture, and nothing else has changed. Input and output may be one file. -/
theorem session_generate {args : List String}
    (hargs : parse args = .ok (.generate input output options layout))
    (launch : Launch (StateM Directory)) (d : Directory) :
    let result := ((session (Directory.hostWith launch) args).run d).1
    let after := ((session (Directory.hostWith launch) args).run d).2
    (d.contents input = none → result.exitCode = 1 ∧ after = d) ∧
    ∀ bytes, d.contents input = some bytes →
      (∀ fault, Json.readBytes InstructionEntry.listOfJson bytes = .error fault →
        result.exitCode = 1 ∧ after = d) ∧
      ∀ entries, Json.readBytes InstructionEntry.listOfJson bytes = .ok entries →
        (∀ e, Batch.generate entries options = .error e →
          result.exitCode = 1 ∧ result.errorLine? = some ("Error: " ++ e.message) ∧ after = d) ∧
        ∀ report written, Batch.generate entries options = .ok report →
          d.write output (Text.encode ((Fixture.ofReport report).render layout)) = some written →
          result.exitCode = 0 ∧ Holds after d output (.ofReport report) layout := by
  intro result after
  have hsession : (session (Directory.hostWith launch) args).run d =
      (generate (Directory.hostWith launch) input output options layout).run d := by
    rw [session_of_parse hargs]
    rfl
  have hfails : ∀ {reason}, fixtureOf input options (d.contents input) = .error reason →
      result = .failed reason ∧ after = d := by
    intro reason h
    have hrun := hsession.trans (generate_of_error h)
    exact ⟨congrArg Prod.fst hrun, congrArg Prod.snd hrun⟩
  refine ⟨?unread, fun bytes hread => ⟨?undecoded, fun entries hentries => ⟨?refused, ?done⟩⟩⟩
  case unread =>
    intro hread
    obtain ⟨hresult, hafter⟩ := hfails (by rw [hread]; rfl)
    exact ⟨by rw [hresult]; rfl, hafter⟩
  case undecoded =>
    intro fault hfault
    obtain ⟨hresult, hafter⟩ := hfails (by rw [hread, fixtureOf, Option.map_some, hfault])
    exact ⟨by rw [hresult]; rfl, hafter⟩
  case refused =>
    intro e he
    have hfixture : fixtureOf input options (d.contents input) = .error e.message := by
      rw [hread, fixtureOf, Option.map_some, hentries]
      simp only [he]
    obtain ⟨hresult, hafter⟩ := hfails hfixture
    exact ⟨by rw [hresult]; rfl, by rw [hresult]; rfl, hafter⟩
  case done =>
    intro report written hreport hwritten
    have hfixture : fixtureOf input options (d.contents input) = .ok (.ofReport report) := by
      rw [hread, fixtureOf, Option.map_some, hentries]
      simp only [hreport]
    have hrun := hsession.trans (generate_of_ok hfixture hwritten)
    have hresult : result = ⟨"", .success⟩ := congrArg Prod.fst hrun
    have hafter : after = written := congrArg Prod.snd hrun
    exact ⟨by rw [hresult]; rfl, hafter ▸ holds_of_write hwritten⟩

/-- One entry, all of it in arrays. -/
def sampleText : String :=
  "[[[\"NOP\", [0, 1, 1, [\"control\", \"nop\"]]]]]"

/-- A file with one entry, a file that is cut off, a file that is no text and an empty
directory. -/
def sampleFiles : Directory :=
  let d := Directory.ofList [("in.json", sampleText), ("cut.json", "[")]
  { d with files := (["raw.json"], [0xFF]) :: d.files, directories := [["out"]] }

/-- What a generation without further arguments makes of the sample files. -/
def afterSample (input output : String) : Directory :=
  ((session (Directory.hostWith noPrograms) ["generate", input, output]).run sampleFiles).2

/-- The fixture of the sample takes the place of its entries or goes into the empty directory.
Files that are no descriptors leave all as it was. -/
theorem session_generate_sampleFiles :
    (∃ r, r.cases.map TestCase.name = ["0x00"] ∧
      Holds (afterSample "in.json" "./in.json") sampleFiles "./in.json" (.ofReport r) .indented ∧
      Holds (afterSample "in.json" "out/new.json") sampleFiles "out/new.json" (.ofReport r)
        .indented) ∧
    afterSample "cut.json" "in.json" = sampleFiles ∧
    afterSample "raw.json" "in.json" = sampleFiles := by
  have hrefused : ∀ input bytes,
      parse ["generate", input, "in.json"] =
        .ok (.generate input "in.json" ⟨false, []⟩ .indented) →
      sampleFiles.contents input = some bytes →
      Json.readBytes InstructionEntry.listOfJson bytes = .error .text →
      afterSample input "in.json" = sampleFiles := by
    intro input bytes hargs hcontents hfault
    obtain ⟨hfails, -⟩ := (session_generate hargs noPrograms sampleFiles).2 bytes hcontents
    exact (hfails .text hfault).2
  refine ⟨?loads, hrefused "cut.json" (Text.encode "[") rfl ?_ ?_,
    hrefused "raw.json" [0xFF] rfl ?_ ?_⟩
  case loads =>
    let entries : List InstructionEntry := [⟨"NOP", ⟨0, 1, 1, .control .nop⟩⟩]
    have hworklist : Batch.worklist entries = entries := by
      simp [entries, Batch.worklist, Batch.inOrder, Batch.dropRepeats]
    have hreport : ∃ r, Batch.generate entries ⟨false, []⟩ = .ok r ∧
        r.cases.map TestCase.name = ["0x00"] := by
      rw [Batch.generate, hworklist]
      exact ⟨_, rfl, by decide +kernel⟩
    obtain ⟨r, hr, hnames⟩ := hreport
    have hcontents : sampleFiles.contents "in.json" = some (Text.encode sampleText) := by
      decide +kernel
    have hentries : Json.readBytes InstructionEntry.listOfJson (Text.encode sampleText) =
        .ok entries := by
      decide +kernel
    have hloads : ∀ output place,
        parse ["generate", "in.json", output] =
          .ok (.generate "in.json" output ⟨false, []⟩ .indented) →
        sampleFiles.resolve output = some place → sampleFiles.hasDirectory place = false →
        place ≠ Directory.nullDevice →
        Holds (afterSample "in.json" output) sampleFiles output (.ofReport r) .indented := by
      intro output place hargs hplace hfree hnull
      obtain ⟨-, hsuccess⟩ := (session_generate hargs noPrograms sampleFiles).2 _ hcontents
      exact ((hsuccess entries hentries).2 r _ hr
        (Directory.write_of_resolve hplace hfree hnull _)).2
    refine ⟨r, hnames, hloads "./in.json" ["in.json"] rfl ?_ ?_ (by decide),
      hloads "out/new.json" ["out", "new.json"] rfl ?_ ?_ (by decide)⟩ <;> decide +kernel
  all_goals decide +kernel

end CommandLine

end GoldenTrace
