import GoldenTrace.Assembly
import GoldenTrace.Proofs.Steps

/-!
# What assembly accepts

A descriptor is assembled exactly if its bytes make a stream, its operands make
an instruction, and every trace of that instruction spans the declared cycles.
The traces are then those of the instruction: one without an outcome, or the
taken side of a branch and after it the other.
-/

namespace GoldenTrace

namespace Descriptor

theorem stream_eq_ok_iff {d : Descriptor} {e : Encoding} :
    d.stream = .ok e ↔ d.encoding = .ok e := by
  rw [stream]
  split <;> simp_all

/-- What operands refuse, assembly refuses. -/
theorem assemble_of_refusal {d : Descriptor} {e : Encoding} {refusal : Refusal}
    (he : d.encoding = .ok e) (h : Instruction.ofOperation e d.operation = .error refusal) :
    d.assemble = .error refusal := by
  rw [assemble, stream_eq_ok_iff.mpr he]
  show (Instruction.ofOperation e d.operation >>= _ >>= _) = _
  rw [h]
  rfl

/-- Everything that an accepted descriptor has gone through. -/
theorem assemble_eq_ok_iff {d : Descriptor} {ts : List Trace} :
    d.assemble = .ok ts ↔ ∃ e i, d.encoding = .ok e ∧ Instruction.decode e d.operation = .ok i ∧
      ts = i.traces e ∧ ∀ t ∈ ts, t.checkDuration d.duration (t.cyclesSaved i) = .ok () := by
  rw [assemble]
  simp only [bind_eq_ok_iff, stream_eq_ok_iff]
  constructor
  · rintro ⟨e, he, i, hi, _, hts, h⟩
    cases h
    exact ⟨e, i, he, hi, rfl, forM_eq_ok_iff.mp hts⟩
  · rintro ⟨e, i, he, hi, rfl, hts⟩
    exact ⟨e, he, i, hi, (), forM_eq_ok_iff.mpr hts, rfl⟩

end Descriptor

/-- An instruction has one trace, or those of the two sides of a branch. -/
theorem Instruction.outcomes_traces (e : Encoding) (i : Instruction) :
    (i.traces e).map Trace.outcome = [none] ∨
      (i.traces e).map Trace.outcome = [some .taken, some .notTaken] := by
  rw [traces]
  cases i.condition? with
  | none => exact Or.inl rfl
  | some c => exact Or.inr rfl

/-- A descriptor that is accepted has one trace, or those of the two sides of a
branch. -/
theorem Descriptor.outcomes_assemble {d : Descriptor} {ts : List Trace}
    (h : d.assemble = .ok ts) :
    ts.map Trace.outcome = [none] ∨ ts.map Trace.outcome = [some .taken, some .notTaken] := by
  obtain ⟨e, i, -, -, rfl, -⟩ := assemble_eq_ok_iff.mp h
  exact i.outcomes_traces e

end GoldenTrace
