import GoldenTrace.Proofs.Arguments
import GoldenTrace.Proofs.Verdict

/-!
# Leaving opcodes out

A batch passes over the entries of an opcode that is left out when it comes to them, which
is after it has sorted its entries and has chosen the first of every opcode. It might as well
have never seen them. So one more opcode takes the cases of this opcode from a report, and
nothing else; and the name of a case tells how to leave its opcode out.
-/

namespace GoldenTrace

/-- The part of a case's name before the outcome. -/
def TestCase.opcodeText (c : TestCase) : String :=
  String.ofList (c.name.toList.takeWhile (· != '_'))

namespace Batch

section

variable {entries : List InstructionEntry} {exclude : List UInt16}

/-! ## Removal -/

theorem find?_kept {op : EffectiveOpcode} (h : op.value ∉ exclude) (es : List InstructionEntry) :
    (kept exclude es).find? (fun e => e.opcode = op) = es.find? fun e => e.opcode = op := by
  rw [← List.head?_filter, ← List.head?_filter, filter_kept h]

/-- Choosing first entries and leaving opcodes out may change places. -/
theorem leads_kept_iff {e : InstructionEntry} :
    Leads (kept exclude entries) [] e ↔ Leads entries exclude e := by
  constructor
  · rintro ⟨hfirst, -⟩
    have hkept : e.opcode.value ∉ exclude := (mem_kept.mp (List.mem_of_find?_eq_some hfirst)).2
    rw [find?_kept hkept] at hfirst
    exact ⟨hfirst, hkept⟩
  · rintro ⟨hfirst, hkept⟩
    refine ⟨?_, List.not_mem_nil⟩
    rw [find?_kept hkept, hfirst]

theorem generate_kept (strict : Bool) (exclude : List UInt16) (entries : List InstructionEntry) :
    generate (kept exclude entries) ⟨strict, []⟩ = generate entries ⟨strict, exclude⟩ := by
  rw [generate_eq, generate_eq, kept_worklist_eq_of_leads fun e => leads_kept_iff]

/-! ## One opcode more -/

theorem kept_cons (op : EffectiveOpcode) (es : List InstructionEntry) :
    kept (op.value :: exclude) es = (kept exclude es).filter fun e => e.opcode ≠ op := by
  rw [kept, kept, List.filter_filter]
  refine List.filter_congr ?_
  intro e _
  have hvalue : e.opcode.value = op.value ↔ e.opcode = op := EffectiveOpcode.value_inj
  by_cases heq : e.opcode = op
  · simp [heq]
  · simp [heq, hvalue]

/-- What is left out is all that goes. -/
theorem generate_exclude_cons {strict : Bool} {r : Report}
    (h : generate entries ⟨strict, exclude⟩ = .ok r) (op : EffectiveOpcode) :
    generate entries ⟨strict, op.value :: exclude⟩ =
      .ok ⟨r.cases.filter fun c => c.opcode ≠ op, r.unsupported.filter fun u => u.opcode ≠ op⟩ := by
  obtain ⟨hdefect, hstrict, rfl⟩ := generate_eq_ok_iff.mp h
  refine generate_eq_ok_iff.mpr ⟨?_, ?_, ?_⟩
  · intro e he
    rw [kept_cons] at he
    exact hdefect e (List.mem_of_mem_filter he)
  · intro hs
    show List.filter _ _ = []
    rw [hstrict hs, List.filter_nil]
  · rw [kept_cons, ← filter_flatMap (fun _ _ => opcode_of_mem_casesOf) (fun o => o ≠ op),
      ← filter_flatMap (fun _ _ => opcode_of_mem_unsupportedOf) (fun o => o ≠ op)]

/-- An opcode with cases has no unsupported item. -/
theorem opcode_ne_of_mem {options : BatchOptions} {r : Report}
    (h : generate entries options = .ok r) {c : TestCase} {u : Unsupported} (hc : c ∈ r.cases)
    (hu : u ∈ r.unsupported) : u.opcode ≠ c.opcode := by
  obtain ⟨-, -, rfl⟩ := generate_eq_ok_iff.mp h
  obtain ⟨e, he, hce⟩ := List.mem_flatMap.mp hc
  obtain ⟨e', he', hue⟩ := List.mem_flatMap.mp hu
  intro heq
  rw [opcode_of_mem_casesOf hce, opcode_of_mem_unsupportedOf hue] at heq
  -- both are the first entry of the one opcode
  have hfirst := (mem_kept_worklist_iff.mp he').first
  rw [heq, (mem_kept_worklist_iff.mp he).first] at hfirst
  obtain rfl := Option.some.inj hfirst
  rw [casesOf] at hce
  rw [unsupportedOf] at hue
  cases hass : e.descriptor.assemble with
  | ok ts =>
      rw [hass] at hue
      cases hue
  | error refusal =>
      rw [hass] at hce
      cases hce

/-- One opcode with cases left out more, and its cases are gone. -/
theorem generate_exclude_case {strict : Bool} {r : Report}
    (h : generate entries ⟨strict, exclude⟩ = .ok r) {c : TestCase} (hc : c ∈ r.cases) :
    generate entries ⟨strict, c.opcode.value :: exclude⟩ =
      .ok { r with cases := r.cases.filter fun d => d.opcode ≠ c.opcode } := by
  have hunsupported : (r.unsupported.filter fun u => u.opcode ≠ c.opcode) = r.unsupported := by
    rw [List.filter_eq_self]
    intro u hu
    exact decide_eq_true (opcode_ne_of_mem h hc hu)
  rw [generate_exclude_cons h, hunsupported]

theorem opcodeText_of_mem {options : BatchOptions} {r : Report}
    (h : generate entries options = .ok r) {c : TestCase} (hc : c ∈ r.cases) :
    c.opcodeText = c.opcode.display := by
  obtain ⟨e, -, hce⟩ := mem_casesOf_of_generate h hc
  rw [TestCase.opcodeText, name_of_mem_casesOf hce, takeWhile_caseName, String.ofList_toList]

end

/-! ## Leaving out -/

/-- What it comes to that a batch leaves opcodes out. -/
structure Excludes (entries : List InstructionEntry) (options : BatchOptions) : Prop where
  /-- Report or error, the result is that of a batch without the entries left out. -/
  removal : generate entries options =
    generate (entries.filter fun e => e.opcode.value ∉ options.exclude) ⟨options.strict, []⟩
  /-- The order of what is left out does not matter, nor how often it is named. -/
  members : ∀ exclude, (∀ v, v ∈ exclude ↔ v ∈ options.exclude) →
    generate entries ⟨options.strict, exclude⟩ = generate entries options
  /-- If the options come from the command line, then with the opcode in the name of a case
  left out as well, the cases of this opcode are taken from the report and nothing else. -/
  named : ∀ args input output layout r c,
    CommandLine.parse ("generate" :: args) = .ok (.generate input output options layout) →
    generate entries options = .ok r → c ∈ r.cases →
    ∃ options', CommandLine.parse ("generate" :: "--exclude" :: c.opcodeText :: args) =
        .ok (.generate input output options' layout) ∧
      generate entries options' =
        .ok { r with cases := r.cases.filter fun d => d.opcode ≠ c.opcode }

/-- **Exclusion is removal.** Every opcode is read back from its printed form, and to leave
opcodes out of a batch is to have no entries of them. -/
theorem excludes_generate (entries : List InstructionEntry) (options : BatchOptions) :
    (∀ op : EffectiveOpcode, CommandLine.parseOpcode op.display = some op.value) ∧
      Excludes entries options := by
  refine ⟨CommandLine.parseOpcode_display, ?removal, ?members, ?named⟩
  case removal =>
    have hkept : (entries.filter fun e => e.opcode.value ∉ options.exclude) =
        kept options.exclude entries := by
      refine List.filter_congr ?_
      intro e _
      rw [List.contains_eq_mem, decide_not]
    rw [hkept, generate_kept]
  case members =>
    intro exclude hmembers
    rw [generate_eq, generate_eq]
    have hleads : ∀ e, Leads entries exclude e ↔ Leads entries options.exclude e := by
      intro e
      constructor
      · rintro ⟨hfirst, hkept⟩
        exact ⟨hfirst, (hmembers _).not.mp hkept⟩
      · rintro ⟨hfirst, hkept⟩
        exact ⟨hfirst, (hmembers _).not.mpr hkept⟩
    rw [kept_worklist_eq_of_leads hleads]
  case named =>
    intro args input output layout r c hparse hr hc
    have hopcode : CommandLine.parseOpcode c.opcodeText = some c.opcode.value := by
      rw [opcodeText_of_mem hr hc, CommandLine.parseOpcode_display]
    refine ⟨⟨options.strict, c.opcode.value :: options.exclude⟩, ?_,
      generate_exclude_case hr hc⟩
    rw [CommandLine.parse_exclude hopcode, hparse]
    rfl

/-- Without the opcode of the jump, the report of the sample has no cases. -/
theorem excludes_generate_sample :
    ∃ r c options, generate sample ⟨false, [0x00]⟩ = .ok r ∧ c ∈ r.cases ∧ c.opcodeText = "0xC2" ∧
      CommandLine.parse ["generate", "--exclude", "0xC2", "--exclude", "0x00", "in", "out"] =
        .ok (.generate "in" "out" options .indented) ∧
      generate sample options = .ok { r with cases := [] } := by
  obtain ⟨r, hr, hnames, -⟩ := generate_sample
  have htext : ∀ c ∈ r.cases, c.opcodeText = "0xC2" := by
    intro c hc
    have hname : c.name ∈ ["0xC2_taken", "0xC2_not_taken"] := hnames ▸ List.mem_map_of_mem hc
    rw [List.mem_cons, List.mem_singleton] at hname
    rcases hname with hname | hname <;> rw [TestCase.opcodeText, hname] <;> rfl
  have hne : r.cases ≠ [] := by
    intro hnil
    rw [hnil] at hnames
    cases hnames
  obtain ⟨c, hc⟩ := List.exists_mem_of_ne_nil _ hne
  obtain ⟨options, hparse, hgenerate⟩ := (excludes_generate sample ⟨false, [0x00]⟩).2.named
    ["--exclude", "0x00", "in", "out"] "in" "out" .indented r c rfl hr hc
  have hnone : (r.cases.filter fun d => d.opcode ≠ c.opcode) = [] := by
    rw [List.filter_eq_nil_iff]
    intro d hd
    have hdisplay : d.opcode.display = c.opcode.display := by
      rw [← opcodeText_of_mem hr hd, ← opcodeText_of_mem hr hc, htext d hd, htext c hc]
    simpa using EffectiveOpcode.display_injective hdisplay
  rw [htext c hc] at hparse
  rw [hnone] at hgenerate
  exact ⟨r, c, options, hr, hc, htext c hc, hparse, hgenerate⟩

end Batch

end GoldenTrace
