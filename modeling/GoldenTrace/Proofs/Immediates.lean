import GoldenTrace.Proofs.Duration
import GoldenTrace.Proofs.Instruction.Shapes
import GoldenTrace.Proofs.Refusals
import GoldenTrace.Proofs.Segments
import GoldenTrace.Proofs.Verdict
import Mathlib.Data.List.Forall2

/-!
# Immediates do not matter to shapes

Variants of a descriptor have its opcode and its operands, but for the constants in these.
They are supported together or not at all, and their traces go through the same cycles with
writes to the same targets. So it does not matter to the names of a report, nor to what is
written in which cycle, which of several variants a batch finds first.
-/

namespace GoldenTrace

/-! ## Machine cycles -/

def Command.Shape.isHalt : Command.Shape → Bool
  | halt => true
  | _ => false

theorem Command.isHalt_shape (step : Command) : step.shape.isHalt = step.isHalt := by
  cases step <;> rfl

/-- A queue is cut into cycles where its shape is. -/
theorem Queue.map_shape_cycles (q : Queue) :
    q.cycles.map shape = segments Command.Shape.isHalt q.shape := by
  have hhalt : (fun step : Command => step.shape.isHalt) = Command.isHalt :=
    funext Command.isHalt_shape
  rw [shape, segments_map, hhalt]
  rfl

/-! ## Descriptors -/

namespace Descriptor

/-- Descriptors of one opcode that differ in the constants of their operands, in their
duration and in the bytes behind the opcode. -/
structure Variants (d d' : Descriptor) : Prop where
  opcode : d.effectiveOpcode = d'.effectiveOpcode
  shape : d.operation.shape = d'.operation.shape

/-- Supported together or not at all, and with traces of one shape. -/
structure Interchangeable (d d' : Descriptor) : Prop where
  unsupported_iff : d.Unsupported ↔ d'.Unsupported
  traces : ∀ ts ts', d.assemble = .ok ts → d'.assemble = .ok ts' →
    List.Forall₂ Trace.Alike ts ts'

section

open Instruction Instruction.Decoding

variable {d d' : Descriptor} {e e' : Encoding}

/-- Being unsupported shows in the decoding. -/
theorem unsupported_iff_decoding (he : d.encoding = .ok e) :
    d.Unsupported ↔ Decoding.of (ofOperation e d.operation) = .unsupported := by
  simp only [Unsupported, of_eq_unsupported_iff, assemble_eq_unsupported_iff he]

/-- Variants decode alike. -/
theorem Variants.agree (h : d.Variants d') (he : d.encoding = .ok e)
    (he' : d'.encoding = .ok e') :
    Agree (Decoding.of (ofOperation e d.operation)) (Decoding.of (ofOperation e' d'.operation)) := by
  have hlead : e.lead = e'.lead := by
    rw [(encoding_eq_ok_iff_bytes.mp he).2, (encoding_eq_ok_iff_bytes.mp he').2, h.opcode]
  have hpayload : e.payload? = e'.payload? := by
    rw [payload?_of_encoding he, payload?_of_encoding he', h.opcode]
  rw [ofOperation_congr hlead hpayload]
  exact agree_ofOperation h.shape

theorem Variants.interchangeable (h : d.Variants d') (he : d.encoding = .ok e)
    (he' : d'.encoding = .ok e') : d.Interchangeable d' := by
  have hagree := h.agree he he'
  constructor
  case unsupported_iff =>
    rw [unsupported_iff_decoding he, unsupported_iff_decoding he']
    exact hagree.unsupported_iff
  case traces =>
    intro ts ts' hts hts'
    obtain ⟨_, i, heq, hi, hfits, -, rfl⟩ := assemble_eq_ok_iff_denotes.mp hts
    cases he.symm.trans heq
    obtain ⟨_, j, heq', hj, hfits', -, rfl⟩ := assemble_eq_ok_iff_denotes.mp hts'
    cases he'.symm.trans heq'
    rw [hi.ofOperation, hj.ofOperation] at hagree
    have hshape : i.shape = j.shape := hagree.shape _ _ rfl rfl
    exact alike_traces hshape (hi.streamLength_le hfits) (hj.streamLength_le hfits')

end

end Descriptor

/-! ## Batches -/

/-- Cases of one name that start from one state and whose cycles write to the same targets. -/
structure TestCase.Alike (c c' : TestCase) : Prop where
  name : c.name = c'.name
  preset : c.preset = c'.preset
  outcome : c.outcome = c'.outcome
  cycles : c.queue.cycles.map Queue.shape = c'.queue.cycles.map Queue.shape

/-- Reports with the same cases but for constants, and the same opcodes unsupported. -/
structure Report.Alike (r r' : Report) : Prop where
  cases : List.Forall₂ TestCase.Alike r.cases r'.cases
  unsupported : List.Forall₂ (fun u u' => u.opcode = u'.opcode) r.unsupported r'.unsupported

namespace Batch

/-- Lists with entries of the same opcodes, where all entries of one opcode are variants of
each other. -/
structure Variants (entries entries' : List InstructionEntry) : Prop where
  opcodes : ∀ op, (∃ e ∈ entries, e.opcode = op) ↔ ∃ e ∈ entries', e.opcode = op
  shapes : ∀ e ∈ entries, ∀ e' ∈ entries', e.opcode = e'.opcode →
    e.descriptor.operation.shape = e'.descriptor.operation.shape

/-! ### One entry -/

section

variable {e e' : InstructionEntry}

theorem exists_encoding_of_no_defect (h : defect? e = none) :
    ∃ stream, e.descriptor.encoding = .ok stream := by
  cases hencoding : e.descriptor.encoding with
  | ok stream => exact ⟨stream, rfl⟩
  | error reason =>
      rw [defect?, Descriptor.assemble_eq_encodingError_iff.mpr hencoding] at h
      cases h

theorem accepted_or_unsupported (h : defect? e = none) :
    (∃ ts, e.descriptor.assemble = .ok ts) ∨ e.descriptor.Unsupported := by
  rw [defect?] at h
  cases hass : e.descriptor.assemble with
  | ok ts => exact Or.inl ⟨ts, rfl⟩
  | error refusal =>
      cases refusal with
      | unsupported gap => exact Or.inr ⟨gap, hass⟩
      | malformed defect =>
          rw [hass] at h
          cases h

theorem alike_caseOf (hop : e.opcode = e'.opcode) {t t' : Trace} (h : t.Alike t') :
    (caseOf e t).Alike (caseOf e' t') where
  name := by
    show caseName e.opcode t.outcome = caseName e'.opcode t'.outcome
    rw [hop, h.outcome]
  preset := h.preset
  outcome := h.outcome
  cycles := by
    show t.queue.cycles.map Queue.shape = t'.queue.cycles.map Queue.shape
    rw [Queue.map_shape_cycles, Queue.map_shape_cycles, h.shape]

/-- What a batch makes of one entry. -/
def reportOf (e : InstructionEntry) : Report :=
  ⟨casesOf e, unsupportedOf e⟩

theorem reportOf_of_ok {ts : List Trace} (h : e.descriptor.assemble = .ok ts) :
    reportOf e = ⟨ts.map (caseOf e), []⟩ := by
  rw [reportOf, casesOf, unsupportedOf, h]

theorem reportOf_of_unsupported {gap : Gap}
    (h : e.descriptor.assemble = .error (.unsupported gap)) :
    reportOf e = ⟨[], [⟨e.instruction, e.descriptor.machineCode, gap.message⟩]⟩ := by
  rw [reportOf, casesOf, unsupportedOf, h]

/-- Of variants without defects a batch makes the same. -/
theorem alike_reportOf (h : e.descriptor.Variants e'.descriptor) (hdefect : defect? e = none)
    (hdefect' : defect? e' = none) : (reportOf e).Alike (reportOf e') := by
  obtain ⟨stream, hstream⟩ := exists_encoding_of_no_defect hdefect
  obtain ⟨stream', hstream'⟩ := exists_encoding_of_no_defect hdefect'
  have hboth := h.interchangeable hstream hstream'
  rcases accepted_or_unsupported hdefect with ⟨ts, hts⟩ | hunsupported
  · rcases accepted_or_unsupported hdefect' with ⟨ts', hts'⟩ | hunsupported'
    · rw [reportOf_of_ok hts, reportOf_of_ok hts']
      refine ⟨?_, .nil⟩
      rw [List.forall₂_map_left_iff, List.forall₂_map_right_iff]
      exact (hboth.traces ts ts' hts hts').imp fun t t' => alike_caseOf h.opcode
    · obtain ⟨gap, hgap⟩ := hboth.unsupported_iff.mpr hunsupported'
      cases hts.symm.trans hgap
  · obtain ⟨gap', hgap'⟩ := hboth.unsupported_iff.mp hunsupported
    obtain ⟨gap, hgap⟩ := hunsupported
    rw [reportOf_of_unsupported hgap, reportOf_of_unsupported hgap']
    exact ⟨.nil, .cons h.opcode .nil⟩

end

/-! ### The worklist -/

section

variable {entries entries' : List InstructionEntry} {exclude : List UInt16}

theorem mem_opcodes_iff {op : EffectiveOpcode} :
    op ∈ (kept exclude (worklist entries)).map InstructionEntry.opcode ↔
      op.value ∉ exclude ∧ ∃ e ∈ entries, e.opcode = op := by
  rw [List.mem_map]
  constructor
  · rintro ⟨e, he, rfl⟩
    obtain ⟨he, hop⟩ := mem_kept.mp he
    exact ⟨hop, e, mem_of_mem_worklist he, rfl⟩
  · rintro ⟨hop, hex⟩
    obtain ⟨first, hfirst, hsame⟩ := exists_first hex
    exact ⟨first, mem_kept_worklist hop hfirst, hsame⟩

theorem pairwise_opcodes :
    ((kept exclude (worklist entries)).map InstructionEntry.opcode).Pairwise fun a b =>
      a.value < b.value :=
  List.pairwise_map.mpr (pairwise_kept exclude (pairwise_worklist entries))

/-- Lists with entries of the same opcodes are gone through in step. -/
theorem Variants.opcodes_eq (h : Variants entries entries') :
    (kept exclude (worklist entries)).map InstructionEntry.opcode =
      (kept exclude (worklist entries')).map InstructionEntry.opcode := by
  apply eq_of_mem_iff pairwise_opcodes pairwise_opcodes
  intro op
  rw [mem_opcodes_iff, mem_opcodes_iff, h.opcodes]

theorem forall₂_of_map_eq {α β κ : Type} {f : α → κ} {g : β → κ} {R : α → β → Prop} {l : List α}
    {l' : List β} (h : l.map f = l'.map g) (hR : ∀ a ∈ l, ∀ b ∈ l', f a = g b → R a b) :
    List.Forall₂ R l l' := by
  rw [← List.forall₂_eq_eq_eq, List.forall₂_map_left_iff, List.forall₂_map_right_iff,
    List.forall₂_iff_zip] at h
  refine List.forall₂_iff_zip.mpr ⟨h.1, ?_⟩
  intro a b hab
  obtain ⟨ha, hb⟩ := List.of_mem_zip hab
  exact hR a ha b hb (h.2 hab)

/-- Where all entries of one opcode are variants of each other, any of them may be first. -/
theorem variants_of_perm (hperm : entries.Perm entries')
    (h : ∀ e ∈ entries, ∀ e' ∈ entries, e.opcode = e'.opcode →
      e.descriptor.operation.shape = e'.descriptor.operation.shape) :
    Variants entries entries' where
  opcodes op := by simp only [hperm.mem_iff]
  shapes e he e' he' hop := h e he e' (hperm.mem_iff.mpr he') hop

theorem Variants.alike {options : BatchOptions} {r r' : Report} (h : Variants entries entries')
    (hr : generate entries options = .ok r) (hr' : generate entries' options = .ok r') :
    r.Alike r' := by
  obtain ⟨hdefect, -, rfl⟩ := generate_eq_ok_iff.mp hr
  obtain ⟨hdefect', -, rfl⟩ := generate_eq_ok_iff.mp hr'
  have hworklist : List.Forall₂ (fun e e' => (reportOf e).Alike (reportOf e'))
      (kept options.exclude (worklist entries)) (kept options.exclude (worklist entries')) := by
    apply forall₂_of_map_eq h.opcodes_eq
    intro e he e' he' hop
    have hmem := mem_of_mem_worklist (mem_kept.mp he).1
    have hmem' := mem_of_mem_worklist (mem_kept.mp he').1
    exact alike_reportOf ⟨hop, h.shapes e hmem e' hmem' hop⟩ (hdefect e he) (hdefect' e' he')
  constructor
  case cases => exact List.rel_flatMap hworklist fun _ _ halike => halike.cases
  case unsupported => exact List.rel_flatMap hworklist fun _ _ halike => halike.unsupported

end

end Batch

/-- **Immediates do not matter to shapes.** Variants with streams are interchangeable, and
batches of variants have the same names and write to the same targets, cycle by cycle. -/
theorem variants_interchangeable :
    (∀ d d' : Descriptor, (∃ e, d.encoding = .ok e) → (∃ e, d'.encoding = .ok e) →
      d.Variants d' → d.Interchangeable d') ∧
    ∀ entries entries' options r r', Batch.Variants entries entries' →
      Batch.generate entries options = .ok r → Batch.generate entries' options = .ok r' →
      r.Alike r' := by
  constructor
  · rintro d d' ⟨e, he⟩ ⟨e', he'⟩ h
    exact h.interchangeable he he'
  · intro entries entries' options r r' h hr hr'
    exact h.alike hr hr'

/-- The jump of the sample to another address. -/
def Descriptor.otherJump : Descriptor :=
  ⟨0xC23412, 3, 4, .jump .jp (some .notZero) (some ⟨.imm16 0x1234, false⟩)⟩

namespace Descriptor

theorem encoding_otherJump : otherJump.encoding = .ok ⟨0xC2, [0x34, 0x12]⟩ :=
  encoding_eq_ok_iff.mpr ⟨by decide, by decide, by decide⟩

theorem assemble_otherJump : otherJump.assemble =
    .ok ((Instruction.transfer (.jump (some .notZero) 0x1234)).traces ⟨0xC2, [0x34, 0x12]⟩) :=
  assemble_eq_ok_iff_denotes.mpr ⟨⟨0xC2, [0x34, 0x12]⟩,
    .transfer (.jump (some .notZero) 0x1234), encoding_otherJump, .jump _ _, rfl, rfl, rfl⟩

end Descriptor

/-- Of two entries of one opcode, a batch makes its cases of the first. -/
theorem Batch.generate_pair {a b : InstructionEntry} {ts : List Trace} (hop : a.opcode = b.opcode)
    (hts : a.descriptor.assemble = .ok ts) :
    generate [a, b] ⟨true, []⟩ = .ok ⟨ts.map (caseOf a), []⟩ := by
  have hfirst : ∃ x ∈ [a], x.opcode = b.opcode := ⟨a, List.mem_singleton_self a, hop⟩
  have hworklist : kept [] (worklist [a]) = [a] := by
    rw [worklist, inOrder, List.mergeSort_singleton]
    rfl
  rw [show [a, b] = [a] ++ b :: [] from rfl, generate_eq_of_find? (find?_append_cons hfirst),
    List.append_nil, generate_eq_ok_iff, hworklist, List.forall_mem_singleton, defect?, hts,
    List.flatMap_singleton, List.flatMap_singleton, casesOf_eq_of_ok hts, unsupportedOf, hts]
  exact ⟨rfl, fun _ => rfl, rfl⟩

def Batch.jumps : List InstructionEntry :=
  [⟨"C2CDAB", .jumpSample⟩, ⟨"C23412", .otherJump⟩]

/-- Two jumps to different addresses, and a batch of them in either order. -/
theorem variants_interchangeable_jumps :
    Descriptor.jumpSample.Interchangeable Descriptor.otherJump ∧
    ∃ r r', Batch.generate Batch.jumps ⟨true, []⟩ = .ok r ∧
      Batch.generate Batch.jumps.reverse ⟨true, []⟩ = .ok r' ∧
      r.cases.map TestCase.instruction = [.jumpSample, .jumpSample] ∧
      r'.cases.map TestCase.instruction = [.otherJump, .otherJump] ∧ r.Alike r' := by
  have hop : Descriptor.jumpSample.effectiveOpcode = Descriptor.otherJump.effectiveOpcode := by
    decide
  have hr : Batch.generate Batch.jumps ⟨true, []⟩ = _ :=
    Batch.generate_pair hop Descriptor.assemble_jumpSample
  have hr' : Batch.generate Batch.jumps.reverse ⟨true, []⟩ = _ :=
    Batch.generate_pair hop.symm Descriptor.assemble_otherJump
  have hvariants : Batch.Variants Batch.jumps Batch.jumps.reverse :=
    Batch.variants_of_perm (List.reverse_perm Batch.jumps).symm (by decide)
  constructor
  · exact variants_interchangeable.1 _ _ ⟨_, Descriptor.encoding_jumpSample⟩
      ⟨_, Descriptor.encoding_otherJump⟩ ⟨hop, rfl⟩
  · exact ⟨_, _, hr, hr', rfl, rfl, variants_interchangeable.2 _ _ _ _ _ hvariants hr hr'⟩

end GoldenTrace
