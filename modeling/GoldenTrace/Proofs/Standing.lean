import GoldenTrace.CommandLine.Session
import GoldenTrace.Proofs.Pipeline

/-!
# How cases stand after a run

A case passes, fails or errors by its own capture: it passes if a trace was captured that the
comparison accepts, fails on any other trace and errors without one. A report shows this three
times over, in the block of the case, in the counts and in the exit of the command, each from
another look at the result. All of them agree, as the mismatches of a result are those of its
capture.
-/

namespace GoldenTrace

inductive Standing where
  | passed
  | failed
  | errored
  deriving DecidableEq

namespace CaseResult

/-- How the case of a result stands, by what was captured for it. -/
def standing (r : CaseResult) : Standing :=
  match r.actual with
  | .error _ => .errored
  | .ok q => if r.case.queue.compare q = [] then .passed else .failed

/-- The block of a result in a report. -/
inductive Block (r : CaseResult) : String → Prop where
  | pass {q : Queue} : r.actual = .ok q → r.case.queue.compare q = [] →
      Block r ("PASS " ++ r.title ++ "\n")
  | fail {q : Queue} : r.actual = .ok q → r.case.queue.compare q ≠ [] →
      Block r ("FAIL " ++ r.title ++ ": " ++
        ", ".intercalate ((r.case.queue.compare q).map Mismatch.message) ++ "\n" ++
        Listing.row ' ' "expected" "actual" ++ String.join (Listing.rows r.case.queue q))
  | error {e : CaptureError} : r.actual = .error e →
      Block r ("ERROR " ++ r.title ++ ": " ++ e.message ++ "\n")

/-- The mismatches are those that the comparison finds in the capture. -/
def Compared (r : CaseResult) : Prop :=
  r = .of r.case r.actual

theorem compared_of (c : TestCase) (a : Except CaptureError Queue) : (of c a).Compared := rfl

namespace Compared

variable {r : CaseResult}

theorem mismatches_eq (h : r.Compared) {q : Queue} (hq : r.actual = .ok q) :
    r.mismatches = r.case.queue.compare q := by
  have hmismatches : r.mismatches = (of r.case r.actual).mismatches := congrArg mismatches h
  rw [hmismatches, hq]
  rfl

theorem passed_iff (h : r.Compared) : r.passed = true ↔ r.standing = .passed := by
  cases hq : r.actual with
  | error e => simp [passed, errored, standing, hq]
  | ok q =>
      simp only [passed, errored, standing, hq, h.mismatches_eq hq, Bool.not_false, Bool.true_and,
        List.isEmpty_iff]
      split <;> simp [*]

theorem block_render (h : r.Compared) : r.Block r.render := by
  cases hq : r.actual with
  | error e =>
      rw [render, hq]
      exact .error hq
  | ok q =>
      rw [render, hq]
      dsimp only
      split
      case isTrue hempty =>
        rw [List.isEmpty_iff, h.mismatches_eq hq] at hempty
        exact .pass hq hempty
      case isFalse hempty =>
        rw [List.isEmpty_iff, h.mismatches_eq hq] at hempty
        rw [summary, h.mismatches_eq hq]
        exact .fail hq hempty

end Compared

theorem errored_iff (r : CaseResult) : r.errored = true ↔ r.standing = .errored := by
  cases hq : r.actual with
  | error e => simp [errored, standing, hq]
  | ok q =>
      simp only [errored, standing, hq]
      split <;> simp

end CaseResult

/-! ## Counts -/

/-- How many results stand like this. -/
def tally (results : List CaseResult) (s : Standing) : Nat :=
  results.countP fun r => r.standing = s

/-- Every result stands in one of three ways. -/
theorem tally_add (results : List CaseResult) :
    tally results .passed + tally results .failed + tally results .errored = results.length := by
  induction results with
  | nil => rfl
  | cons r results ih =>
      simp only [tally, List.countP_cons, List.length_cons] at ih ⊢
      cases r.standing <;> simp <;> omega

section

variable {results : List CaseResult}

theorem countP_passed (h : ∀ r ∈ results, r.Compared) :
    results.countP CaseResult.passed = tally results .passed := by
  refine List.countP_congr ?_
  intro r hr
  rw [(h r hr).passed_iff, decide_eq_true_eq]

theorem countP_errored (results : List CaseResult) :
    results.countP CaseResult.errored = tally results .errored := by
  refine List.countP_congr ?_
  intro r _
  rw [r.errored_iff, decide_eq_true_eq]

/-- The difference that the counts take is never cut off. -/
theorem Counts.failed_of (h : ∀ r ∈ results, r.Compared) :
    (Counts.of results).failed = tally results .failed := by
  have hsum := tally_add results
  simp only [Counts.failed, Counts.of, countP_passed h, countP_errored]
  omega

end

/-! ## What a run says -/

/-- What the text of a report says of results: a block for each of them, in their order, and how
many stand in which way. -/
structure Tells (text : String) (results : List CaseResult) (unsupported : List Unsupported) :
    Prop where
  blocks : ∃ blocks, List.Forall₂ CaseResult.Block results blocks ∧
    text = String.join blocks ++ "\n" ++
      (showNat results.length ++ " cases: " ++ showNat (tally results .passed) ++ " passed, " ++
        showNat (tally results .failed) ++ " failed, " ++ showNat (tally results .errored) ++
        " errored\n") ++ renderUnsupported unsupported
  total : tally results .passed + tally results .failed + tally results .errored = results.length

/-- How the command ends: it fails if not all cases have passed, and says how many those are. -/
structure Concludes (r : CommandLine.Result) (results : List CaseResult) : Prop where
  failure : r.exitCode = 1 ↔ tally results .passed < results.length
  success : r.exitCode = 0 ↔ tally results .passed = results.length
  line : tally results .passed < results.length →
    r.errorLine? = some ("Error: " ++
      showNat (tally results .failed + tally results .errored) ++ " of " ++
      showNat results.length ++ " cases failed")

theorem tells_renderResults {results : List CaseResult} (h : ∀ r ∈ results, r.Compared)
    (unsupported : List Unsupported) :
    Tells (renderResults results unsupported) results unsupported where
  blocks := by
    refine ⟨results.map CaseResult.render, ?_, ?_⟩
    · rw [List.forall₂_map_right_iff, List.forall₂_same]
      exact fun r hr => (h r hr).block_render
    · rw [renderResults, Counts.render, Counts.failed_of h]
      simp only [Counts.of, countP_passed h, countP_errored]
  total := tally_add results

theorem countP_not_passed {results : List CaseResult} (h : ∀ r ∈ results, r.Compared) :
    (results.countP fun r => !r.passed) =
      tally results .failed + tally results .errored := by
  have hsplit := List.length_eq_countP_add_countP CaseResult.passed (l := results)
  have hsum := tally_add results
  rw [countP_passed h] at hsplit
  have hnot : (results.countP fun r => !r.passed) =
      results.countP fun r => decide ¬ r.passed = true := by
    refine List.countP_congr ?_
    simp
  omega

theorem concludes_verdict {results : List CaseResult} (h : ∀ r ∈ results, r.Compared)
    (unsupported : List Unsupported) :
    Concludes (CommandLine.verdict results unsupported) results := by
  have hsum := tally_add results
  have hfailed := countP_not_passed h
  by_cases hnone : tally results .failed + tally results .errored = 0
  · have houtcome : (CommandLine.verdict results unsupported).outcome = .success := by
      simp only [CommandLine.verdict, hfailed, if_pos hnone]
    have hexit : (CommandLine.verdict results unsupported).exitCode = 0 := by
      rw [CommandLine.Result.exitCode, houtcome]
    have hall : tally results .passed = results.length := by omega
    refine ⟨?_, ?_, fun hlt => absurd hall (Nat.ne_of_lt hlt)⟩
    · rw [hexit, hall]
      simp
    · rw [hexit, hall]
      simp
  · have houtcome : (CommandLine.verdict results unsupported).outcome =
        .failure (showNat (tally results .failed + tally results .errored) ++ " of " ++
          showNat results.length ++ " cases failed") := by
      simp only [CommandLine.verdict, hfailed, if_neg hnone]
    have hexit : (CommandLine.verdict results unsupported).exitCode = 1 := by
      rw [CommandLine.Result.exitCode, houtcome]
    have hlt : tally results .passed < results.length := by omega
    refine ⟨?_, ?_, fun _ => ?_⟩
    · simp [hexit, hlt]
    · simp [hexit, Nat.ne_of_lt hlt]
    · simp only [CommandLine.Result.errorLine?, houtcome, String.append_assoc]

/-! ## Runs by name -/

/-- What comes after a step goes on with what the step gave and left. -/
theorem run_bind_of_run_eq {σ α β : Type} {x : StateM σ α} {a : α} {s s' : σ}
    (h : x.run s = (a, s')) (k : α → StateM σ β) : (x >>= k).run s = (k a).run s' := by
  rw [StateT.run_bind, h]
  rfl

/-- Where no program can be started. -/
def noPrograms {m : Type → Type} [Monad m] : Launch m :=
  fun _ _ _ => return .error "no programs"

namespace Fixture

/-- Whatever state it has, a source captures for a case what it answers to the name of the case. -/
def Answers {σ : Type} (capture : TestCase → StateM σ (Except CaptureError Queue))
    (answer : String → Except CaptureError Queue) : Prop :=
  ∀ c s, ((capture c).run s).1 = answer c.name

theorem select_eq (f : Fixture) (filter : Option String) :
    f.select filter = f.cases.filter fun c => ∀ p ∈ filter, p.toList <+: c.name.toList := by
  cases filter with
  | none => simp [select]
  | some p =>
      rw [select]
      refine List.filter_congr ?_
      intro c _
      rw [Bool.eq_iff_iff, List.isPrefixOf_iff_prefix, decide_eq_true_eq]
      simp

/-- A run has a result for every selected case, and its mismatches are those of the capture. -/
theorem compared_of_run {σ : Type} (f : Fixture) (filter : Option String)
    (capture : TestCase → StateM σ (Except CaptureError Queue)) (s : σ) :
    ((f.run filter capture).run s).1.map CaseResult.case = f.select filter ∧
      ∀ r ∈ ((f.run filter capture).run s).1, r.Compared := by
  refine mapM_run ?_ s
  intro c _ s
  have hresult : ((CaseResult.of c <$> capture c).run s).1 = .of c ((capture c).run s).1 := rfl
  rw [hresult]
  exact ⟨rfl, CaseResult.compared_of c _⟩

/-- A run compares every selected case with what the source answers to its name. -/
theorem run_of_answers {σ : Type} {capture : TestCase → StateM σ (Except CaptureError Queue)}
    {answer : String → Except CaptureError Queue} (h : Answers capture answer) (f : Fixture)
    (filter : Option String) (s : σ) :
    ((f.run filter capture).run s).1 =
      (f.select filter).map fun c => .of c (answer c.name) := by
  have hrun : ((f.run filter capture).run s).1.map CaseResult.case = f.select filter ∧
      ∀ r ∈ ((f.run filter capture).run s).1, r = .of r.case (answer r.case.name) := by
    refine mapM_run ?_ s
    intro c _ s
    have hresult : ((CaseResult.of c <$> capture c).run s).1 = .of c (answer c.name) :=
      congrArg (CaseResult.of c) (h c s)
    rw [hresult]
    exact ⟨rfl, rfl⟩
  obtain ⟨hcases, hresults⟩ := hrun
  rw [← hcases, List.map_map]
  exact (List.map_id' _).symm.trans (List.map_congr_left hresults)

/-- The command runs the cases of the fixture that it reads. -/
theorem compare_run {σ : Type} {host : Host (StateM σ)} {path : String} {bytes : List UInt8}
    {s s' : σ} {f : Fixture} (hread : (host.readFile path).run s = (some bytes, s'))
    (hparse : parseBytes bytes = .ok f) (program : String) (args : List String)
    (filter directory : Option String) :
    ((CommandLine.compare host path program args filter directory).run s).1 =
      CommandLine.verdict
        ((f.run filter (CommandLine.capture host program args directory)).run s').1
        f.unsupported := by
  rw [CommandLine.compare, run_bind_of_run_eq hread, Option.map_some, hparse]
  rfl

/-- **The verdict of a run is consistent and isolated.** A run has one result for every case whose
name begins with the filter, in the order of the fixture. The report has a block for each of them
that says how it stands, its counts add up, and the command fails exactly if not all have passed.
With a source that answers to names, a result is made of its case and of the answer to the name of
this case: another source with the same answer to this name leaves it as it is. -/
theorem tells_of_run (f : Fixture) (filter : Option String) :
    (∀ {σ : Type} (capture : TestCase → StateM σ (Except CaptureError Queue)) (s : σ),
      let results := ((f.run filter capture).run s).1
      results.map CaseResult.case =
          (f.cases.filter fun c => ∀ p ∈ filter, p.toList <+: c.name.toList) ∧
        (∀ r ∈ results, r.Compared ∧ (r.passed = true ↔ r.standing = .passed)) ∧
        Tells (renderResults results f.unsupported) results f.unsupported) ∧
    (∀ {σ : Type} (capture : TestCase → StateM σ (Except CaptureError Queue))
      (answer : String → Except CaptureError Queue) (s : σ), Answers capture answer →
      let results := ((f.run filter capture).run s).1
      (∀ r ∈ results, r = .of r.case (answer r.case.name)) ∧
        ∀ {τ : Type} (capture' : TestCase → StateM τ (Except CaptureError Queue))
          (answer' : String → Except CaptureError Queue) (t : τ), Answers capture' answer' →
          ∀ (i : Nat) (r : CaseResult), results[i]? = some r →
            answer' r.case.name = answer r.case.name →
            ((f.run filter capture').run t).1[i]? = some r) ∧
    ∀ {σ : Type} (host : Host (StateM σ)) (path program : String) (bytes : List UInt8)
      (args : List String) (directory : Option String) (s s' : σ),
      (host.readFile path).run s = (some bytes, s') → parseBytes bytes = .ok f →
      let results := ((f.run filter (CommandLine.capture host program args directory)).run s').1
      let r := ((CommandLine.compare host path program args filter directory).run s).1
      r.stdout = renderResults results f.unsupported ∧ Concludes r results := by
  refine ⟨?report, ?isolation, ?command⟩
  case report =>
    intro σ capture s results
    obtain ⟨hcases, hcompared⟩ := compared_of_run f filter capture s
    rw [← select_eq]
    exact ⟨hcases, fun r hr => ⟨hcompared r hr, (hcompared r hr).passed_iff⟩,
      tells_renderResults hcompared f.unsupported⟩
  case isolation =>
    intro σ capture answer s h results
    have hresults : results = (f.select filter).map fun c => .of c (answer c.name) :=
      run_of_answers h f filter s
    refine ⟨?_, ?_⟩
    · intro r hr
      rw [hresults] at hr
      obtain ⟨c, -, rfl⟩ := List.mem_map.mp hr
      rfl
    · intro τ capture' answer' t h' i r hr hsame
      rw [hresults, List.getElem?_map, Option.map_eq_some_iff] at hr
      obtain ⟨c, hc, rfl⟩ := hr
      rw [run_of_answers h', List.getElem?_map, hc, Option.map_some]
      exact congrArg (fun a => some (CaseResult.of c a)) hsame
  case command =>
    intro σ host path program bytes args directory s s' hread hparse results r
    have hr : r = CommandLine.verdict results f.unsupported :=
      compare_run hread hparse program args filter directory
    rw [hr]
    exact ⟨rfl, concludes_verdict (compared_of_run f filter _ s').2 f.unsupported⟩

/-- A fixture of three cases that expect one end of a cycle. -/
def threeHalts : Fixture where
  cases := ["0x00", "0x10", "0x11"].map fun name =>
    ⟨name, ⟨0x00, 1, 1, .control .nop⟩, .default, none, [.halt]⟩
  unsupported := []

/-- Answers to the names of the three cases: the first as expected, the second another trace, the
third none. -/
def threeAnswers (name : String) : Except CaptureError Queue :=
  if name = "0x00" then .ok [.halt]
  else if name = "0x10" then .ok [] else .error .breakpointNotReached

theorem compare_halt_nil : Queue.compare [.halt] [] ≠ [] := by
  intro h
  have hlength := (Queue.compare_eq_nil_iff.mp h).length_eq
  rw [Queue.length_cycles, Queue.length_cycles] at hlength
  cases hlength

/-- A host whose files all hold the same bytes and cannot be written. It has no programs. -/
def readOnly (bytes : List UInt8) : Host (StateM Unit) where
  readFile _ := return some bytes
  writeFile _ _ := return false
  isDirectory _ := return false
  launch := noPrograms

/-- With a source that counts its runs, one of the three cases passes, one fails and one errors, and
the case that passes does so beside other answers to the other names. Where there is no harness,
none passes and the command fails. -/
theorem tells_of_run_threeHalts :
    (∃ results, results.map CaseResult.standing = [.passed, .failed, .errored] ∧
      Tells (renderResults results []) results [] ∧
      ∀ {τ : Type} (capture' : TestCase → StateM τ (Except CaptureError Queue))
        (answer' : String → Except CaptureError Queue) (t : τ), Answers capture' answer' →
        answer' "0x00" = .ok [.halt] →
        ((threeHalts.run none capture').run t).1[0]? = results[0]?) ∧
    ∃ results r, r = ((CommandLine.compare (readOnly (Text.encode (threeHalts.render .compact)))
        "cases.json" "emulator" [] none none).run ()).1 ∧ Concludes r results ∧ r.exitCode = 1 := by
  have hcompared : Queue.compare [.halt] [.halt] = [] := Queue.compare_equivalence.refl [.halt]
  constructor
  · let capture : TestCase → StateM Nat (Except CaptureError Queue) :=
      fun c runs => (threeAnswers c.name, runs + 1)
    have hanswers : Answers capture threeAnswers := fun _ _ => rfl
    have hresults := run_of_answers hanswers threeHalts none 0
    refine ⟨((threeHalts.run none capture).run 0).1, ?_,
      ((tells_of_run threeHalts none).1 capture 0).2.2, ?_⟩
    · rw [hresults]
      simp [select, threeHalts, threeAnswers, CaseResult.standing, CaseResult.of, hcompared,
        compare_halt_nil]
    · intro τ capture' answer' t h' hsame
      have hfirst : ((threeHalts.run none capture).run 0).1[0]? =
          some (.of ⟨"0x00", ⟨0x00, 1, 1, .control .nop⟩, .default, none, [.halt]⟩
            (.ok [.halt])) := by
        rw [hresults]
        rfl
      rw [hfirst]
      exact ((tells_of_run threeHalts none).2.1 capture threeAnswers 0 hanswers).2 capture'
        answer' t h' 0 _ hfirst hsame
  · let host := readOnly (Text.encode (threeHalts.render .compact))
    have hparse : parseBytes (Text.encode (threeHalts.render .compact)) = .ok threeHalts :=
      parseBytes_render .compact threeHalts
    have hconcludes := ((tells_of_run threeHalts none).2.2 host "cases.json" "emulator" _ [] none
      () () rfl hparse).2
    refine ⟨_, _, rfl, hconcludes, hconcludes.failure.mpr ?_⟩
    have hanswers : Answers (CommandLine.capture host "emulator" [] none)
        fun _ => .error (.launch "emulator" "no programs") := fun _ _ => rfl
    rw [run_of_answers hanswers]
    decide

end Fixture

end GoldenTrace
