import GoldenTrace.Proofs.Capture
import GoldenTrace.Proofs.Duration
import GoldenTrace.Proofs.Fixture
import GoldenTrace.Proofs.Instruction.Targets
import GoldenTrace.Proofs.Names
import GoldenTrace.Report

/-!
# From descriptors to a verdict

A fixture that is generated, written and read back is compared with a harness
that does for every case what the case expects, up to the order of steps within
a machine cycle. Every case passes: the harness is started with the name of a
case, which no other case has, and no cycle of a case has a contested target,
so no order of its steps is refused. Nothing but another order within cycles is
accepted in the place of what a case expects.
-/

namespace GoldenTrace

/-- Reordered cycles agree where no target is contested. -/
theorem Queue.compare_of_reordered {q q' : Queue} (h : q.Reordered q')
    (hcontested : ∀ c ∈ q.cycles, ¬ Contested c) : q.compare q' = [] := by
  rw [compare_eq_nil_iff]
  rw [Reordered] at h
  generalize q.cycles = cs at h hcontested
  generalize q'.cycles = ds at h
  induction h with
  | nil => exact .nil
  | cons hperm _ ih =>
      obtain ⟨hc, hcs⟩ := List.forall_mem_cons.mp hcontested
      exact .cons ⟨hperm.symm, fun h => absurd h hc⟩ (ih hcs)

/-- No cycle of a generated case has a contested target. -/
theorem Batch.not_contested_of_generate {entries : List InstructionEntry}
    {options : BatchOptions} {r : Report} (h : generate entries options = .ok r) {c : TestCase}
    (hc : c ∈ r.cases) : ∀ cycle ∈ c.queue.cycles, ¬ cycle.Contested := by
  obtain ⟨e, -, hce⟩ := mem_casesOf_of_generate h hc
  rw [casesOf] at hce
  split at hce
  case h_1 ts hts =>
    obtain ⟨t, ht, rfl⟩ := List.mem_map.mp hce
    obtain ⟨encoding, i, -, -, rfl, -⟩ := Descriptor.assemble_eq_ok_iff.mp hts
    exact (Instruction.distinct_of_mem_traces ht).not_contested
  case h_2 => cases hce

/-- Where no target is contested, queues agree exactly if they differ in the order
within cycles alone. -/
theorem Queue.compare_eq_nil_iff_reordered {q q' : Queue}
    (hcontested : ∀ c ∈ q.cycles, ¬ Contested c) : q.compare q' = [] ↔ q.Reordered q' := by
  constructor
  · intro h
    exact (compare_eq_nil_iff.mp h).imp fun _ _ hagrees => hagrees.1.symm
  · intro h
    exact compare_of_reordered h hcontested

theorem Queue.reordered_iff {q q' : Queue} :
    q.Reordered q' ↔ q'.cycles.length = q.cycles.length ∧
      ∀ (i : Nat) (c d : Queue), q.cycles[i]? = some c → q'.cycles[i]? = some d → d.Perm c := by
  rw [Reordered, List.forall₂_iff_get]
  constructor
  · rintro ⟨hlength, hperm⟩
    refine ⟨hlength.symm, ?_⟩
    intro i c d hc hd
    obtain ⟨hi, rfl⟩ := List.getElem?_eq_some_iff.mp hc
    obtain ⟨hi', rfl⟩ := List.getElem?_eq_some_iff.mp hd
    exact (hperm i hi hi').symm
  · rintro ⟨hlength, hperm⟩
    refine ⟨hlength.symm, ?_⟩
    intro i hi hi'
    exact (hperm i _ _ (List.getElem?_eq_getElem hi) (List.getElem?_eq_getElem hi')).symm

/-! ## What a case accepts -/

theorem CaseResult.passed_of_ok {c : TestCase} {q : Queue} :
    (CaseResult.of c (.ok q)).passed = true ↔ c.queue.compare q = [] := by
  show (true && (c.queue.compare q).isEmpty) = true ↔ _
  rw [Bool.true_and, List.isEmpty_iff]

/-- **No conflicts.** In no machine cycle of an accepted descriptor's traces is a
target written twice, so the order of a cycle never matters. A captured trace
passes for a generated case exactly if it spans as many cycles and each of them has
the expected steps in some order. -/
theorem Fixture.passed_iff_of_generate :
    (∀ (d : Descriptor) (ts : List Trace), d.assemble = .ok ts →
      ∀ t ∈ ts, ∀ cycle ∈ t.queue.cycles,
        (cycle.writes.map Write.target).Nodup ∧ cycle.orderMatters = false) ∧
    ∀ (entries : List InstructionEntry) (options : BatchOptions) (r : Report),
      Batch.generate entries options = .ok r → ∀ c ∈ (ofReport r).cases, ∀ q : Queue,
        ((CaseResult.of c (.ok q)).passed = true ↔
          q.cycles.length = c.queue.cycles.length ∧
            ∀ (i : Nat) (expected actual : Queue), c.queue.cycles[i]? = some expected →
              q.cycles[i]? = some actual → actual.Perm expected) := by
  constructor
  · intro d ts hts t ht cycle hcycle
    obtain ⟨e, i, -, -, rfl, -⟩ := Descriptor.assemble_eq_ok_iff.mp hts
    have hdistinct := Instruction.distinct_of_mem_traces ht
    refine ⟨hdistinct.nodup cycle hcycle, ?_⟩
    rw [← Bool.not_eq_true, Queue.orderMatters_iff]
    exact hdistinct.not_contested cycle hcycle
  · intro entries options r h c hc q
    rw [CaseResult.passed_of_ok,
      Queue.compare_eq_nil_iff_reordered (Batch.not_contested_of_generate h hc),
      Queue.reordered_iff]

/-- Every trace of the jump is without conflicts, and both cases of the sample pass
on what a harness captures that takes the steps of every cycle backwards. -/
theorem Fixture.passed_iff_of_generate_sample :
    (∃ ts, Descriptor.jumpSample.assemble = .ok ts ∧ ∀ t ∈ ts, ∀ cycle ∈ t.queue.cycles,
      (cycle.writes.map Write.target).Nodup ∧ cycle.orderMatters = false) ∧
    ∃ r, Batch.generate Batch.sample ⟨false, [0x00]⟩ = .ok r ∧ ∀ c ∈ (ofReport r).cases,
      (CaseResult.of c (.ok ([Command.halt].intercalate
        (c.queue.cycles.map List.reverse)))).passed = true := by
  constructor
  · exact ⟨_, Descriptor.assemble_jumpSample,
      passed_iff_of_generate.1 _ _ Descriptor.assemble_jumpSample⟩
  · obtain ⟨r, h, -, -⟩ := Batch.generate_sample
    refine ⟨r, h, ?_⟩
    intro c hc
    rw [passed_iff_of_generate.2 _ _ r h c hc]
    exact Queue.reordered_iff.mp (Capture.reordered_reverse c.queue)

/-! ## Runs in which every case passes -/

/-- A run over a list gives a result for every element, in order. What holds of
the result of an element from any state holds of every result of the run. -/
theorem mapM_run {σ α β : Type} {f : α → StateM σ β} {key : β → α} {P : β → Prop}
    {l : List α} (h : ∀ a ∈ l, ∀ s, key ((f a).run s).1 = a ∧ P ((f a).run s).1) (s : σ) :
    ((l.mapM f).run s).1.map key = l ∧ ∀ b ∈ ((l.mapM f).run s).1, P b := by
  induction l generalizing s with
  | nil => exact ⟨rfl, fun b hb => absurd hb List.not_mem_nil⟩
  | cons a l ih =>
      obtain ⟨ha, hl⟩ := List.forall_mem_cons.mp h
      obtain ⟨hkey, hP⟩ := ha s
      obtain ⟨hkeys, hPs⟩ := ih hl ((f a).run s).2
      rw [List.mapM_cons]
      refine ⟨?_, List.forall_mem_cons.mpr ⟨hP, hPs⟩⟩
      exact congrArg₂ List.cons hkey hkeys

namespace CaseResult

/-- A trace was captured and has no mismatches. -/
def Passes (x : CaseResult) : Prop :=
  (∃ q, x.actual = .ok q) ∧ x.mismatches = []

theorem Passes.passed {x : CaseResult} (h : x.Passes) : x.passed = true := by
  obtain ⟨⟨q, hq⟩, hmismatches⟩ := h
  rw [CaseResult.passed, errored, hq, hmismatches]
  rfl

theorem Passes.errored {x : CaseResult} (h : x.Passes) : x.errored = false := by
  obtain ⟨⟨q, hq⟩, -⟩ := h
  rw [CaseResult.errored, hq]

end CaseResult

theorem Counts.of_passes {xs : List CaseResult} (h : ∀ x ∈ xs, x.Passes) :
    Counts.of xs = ⟨xs.length, xs.length, 0⟩ := by
  have hpassed : xs.countP CaseResult.passed = xs.length :=
    List.countP_eq_length.mpr fun x hx => (h x hx).passed
  have herrored : xs.countP CaseResult.errored = 0 := by
    rw [List.countP_eq_zero]
    intro x hx
    rw [(h x hx).errored]
    exact Bool.false_ne_true
  rw [Counts.of, hpassed, herrored]

namespace Fixture

theorem mem_of_mem_select {f : Fixture} {filter : Option String} {c : TestCase}
    (h : c ∈ f.select filter) : c ∈ f.cases := by
  cases filter with
  | none => exact h
  | some s => exact List.mem_of_mem_filter h

/-- **A correct device passes.** Let a batch succeed and its fixture be written
in either layout and read back. A harness that is started with the name of a
case, in whatever state, prints what the case of this name expects, up to the
order of steps within cycles and noise. Then every selected case is captured and
has no mismatches, and the counts say so. -/
theorem run_passes {σ : Type} {entries : List InstructionEntry} {options : BatchOptions}
    {r : Report} (h : Batch.generate entries options = .ok r) (layout : Json.Layout)
    (filter : Option String) (print : String → StateM σ String)
    (hprint : ∀ name c s, (ofReport r).find? name = some c →
      Capture.Prints c.queue ((print name).run s).1) (s : σ) :
    ∃ f, parse ((ofReport r).render layout) = .ok f ∧ f.cases = r.cases ∧
      let results := ((f.run filter fun c => Capture.parse <$> print c.name).run s).1
      results.map CaseResult.case = f.select filter ∧
      (∀ x ∈ results, (∃ q, x.actual = .ok q) ∧ x.mismatches = []) ∧
      Counts.of results = ⟨(f.select filter).length, (f.select filter).length, 0⟩ ∧
      (Counts.of results).failed = 0 := by
  have hread : parse ((ofReport r).render layout) = .ok (ofReport r) := by
    rw [parse_eq]
    exact (faithful 0).read_write _
  refine ⟨ofReport r, hread, rfl, ?_⟩
  intro results
  have hresults : results.map CaseResult.case = (ofReport r).select filter ∧
      ∀ x ∈ results, x.Passes := by
    refine mapM_run ?_ s
    intro c hc s
    -- the harness gets only the name, and no other case has it
    have hmem : c ∈ r.cases := mem_of_mem_select hc
    obtain ⟨q, hreordered, hparse⟩ :=
      Capture.parse_of_prints (hprint c.name c s (Batch.find?_name h hmem))
    have hresult : ((CaseResult.of c <$> Capture.parse <$> print c.name).run s).1 =
        .of c (.ok q) := congrArg (CaseResult.of c) hparse
    rw [hresult]
    exact ⟨rfl, ⟨q, rfl⟩, Queue.compare_of_reordered hreordered
      (Batch.not_contested_of_generate h hmem)⟩
  obtain ⟨hcases, hpasses⟩ := hresults
  have hlength : results.length = ((ofReport r).select filter).length := by
    rw [← hcases, List.length_map]
  have hcounts := Counts.of_passes hpasses
  rw [hlength] at hcounts
  refine ⟨hcases, hpasses, hcounts, ?_⟩
  rw [hcounts]
  simp only [Counts.failed, Nat.sub_self]

/-- A harness that knows what the cases of a fixture expect, prints it backwards
and counts its runs. -/
def harness (f : Fixture) (name : String) : StateM Nat String := fun runs =>
  (((f.find? name).map fun c => Capture.backwards c.queue).getD "", runs + 1)

/-- The sample passes on this harness: two cases, both sides of a jump. -/
theorem run_passes_sample :
    ∃ r f, Batch.generate Batch.sample ⟨false, [0x00]⟩ = .ok r ∧
      parse ((ofReport r).render .indented) = .ok f ∧
      Counts.of ((f.run none fun c => Capture.parse <$> harness (ofReport r) c.name).run 0).1 =
        ⟨2, 2, 0⟩ := by
  obtain ⟨r, h, hnames, -⟩ := Batch.generate_sample
  have hprint : ∀ name c s, (ofReport r).find? name = some c →
      Capture.Prints c.queue ((harness (ofReport r) name).run s).1 := by
    intro name c s hfind
    have htext : ((harness (ofReport r) name).run s).1 = Capture.backwards c.queue := by
      show ((((ofReport r).find? name).map fun c => Capture.backwards c.queue).getD "") = _
      rw [hfind]
      rfl
    rw [htext]
    exact Capture.prints_backwards c.queue
  obtain ⟨f, hread, hcases, -, -, hcounts, -⟩ := run_passes h .indented none _ hprint 0
  have hlength : r.cases.length = 2 := by simpa using congrArg List.length hnames
  refine ⟨r, f, h, hread, ?_⟩
  rw [hcounts, select, hcases, hlength]

end Fixture

end GoldenTrace
