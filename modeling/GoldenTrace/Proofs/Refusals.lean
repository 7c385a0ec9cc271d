import GoldenTrace.Proofs.Instruction.Operands

/-!
# Where assembly refuses a descriptor

A descriptor is refused because of its bytes, then because of its operands, and only then
because of what an instruction asks of it: the immediate in the stream and the machine
cycles. So a refusal that tells of the bytes comes from the bytes, and a descriptor is
unsupported exactly if its operands make no instruction.
-/

namespace GoldenTrace

/-! ## Operands -/

theorem require_bind_eq_error_iff {α β : Type} {part : Part} {o : Option α} {f : α → Decoded β}
    {refusal : Refusal} :
    (require part o >>= f) = .error refusal ↔
      o = none ∧ refusal = .malformed (.missing part) ∨ ∃ a, o = some a ∧ f a = .error refusal := by
  cases o with
  | none =>
      show Except.error _ = Except.error _ ↔ _
      simp [eq_comm]
  | some a =>
      show f a = .error refusal ↔ _
      simp

namespace Instruction

variable {e : Encoding} {reason : EncodingError}

theorem ofArithmetic8_ne_encoding {op : ArithOp} {lhs rhs : Option Operand} :
    ofArithmetic8 op lhs rhs ≠ .error (.malformed (.encoding reason)) := by
  intro h
  unfold ofArithmetic8 ofAlu at h
  split at h
  · split at h
    · cases h
    · rcases require_bind_eq_error_iff.mp h with ⟨-, h⟩ | ⟨o, -, h⟩
      · cases h
      · split at h <;> cases h
  · cases h
  · rcases require_bind_eq_error_iff.mp h with ⟨-, h⟩ | ⟨o, -, h⟩
    · cases h
    · split at h <;> cases h

theorem ofArithmetic16_ne_encoding {op : ArithOp} {lhs rhs : Option Operand} :
    ofArithmetic16 op lhs rhs ≠ .error (.malformed (.encoding reason)) := by
  intro h
  rcases require_bind_eq_error_iff.mp h with ⟨-, h⟩ | ⟨o, -, h⟩
  · cases h
  · split at h <;> cases h

theorem ofBitwise_ne_encoding {op : BitOp} {bit : Option UInt8} {operand : Option Operand} :
    ofBitwise e op bit operand ≠ .error (.malformed (.encoding reason)) := by
  intro h
  rcases require_bind_eq_error_iff.mp h with ⟨-, h⟩ | ⟨declared, -, h⟩
  · cases h
  rcases require_bind_eq_error_iff.mp h with ⟨-, h⟩ | ⟨o, -, h⟩
  · cases h
  split at h
  · cases h
  · split at h
    · cases h
    · split at h
      · cases h
      · split at h <;> cases h

theorem ofLoad_ne_encoding {dst src : Option Operand} {post : PostLoad} :
    ofLoad dst src post ≠ .error (.malformed (.encoding reason)) := by
  intro h
  rcases require_bind_eq_error_iff.mp h with ⟨-, h⟩ | ⟨d, -, h⟩
  · cases h
  rcases require_bind_eq_error_iff.mp h with ⟨-, h⟩ | ⟨s, -, h⟩
  · cases h
  split at h <;> cases h

theorem ofRestart_ne_encoding {lead : UInt8} {target : Option Operand} :
    ofRestart lead target ≠ .error (.malformed (.encoding reason)) := by
  intro h
  unfold ofRestart at h
  split at h
  · cases h
  · split at h <;> cases h

theorem ofJump_ne_encoding {kind : JumpKind} {c : Option Condition} {target : Option Operand} :
    ofJump e kind c target ≠ .error (.malformed (.encoding reason)) := by
  intro h
  cases kind with
  | jp =>
    rcases target with _ | ⟨operand, pointer⟩
    · cases c <;> cases h
    · cases operand with
      | register16 rr => cases c <;> cases rr <;> cases h
      | _ => cases c <;> cases pointer <;> cases h
  | jr | call =>
    rcases target with _ | ⟨operand, pointer⟩
    · cases h
    · cases operand <;> cases pointer <;> cases h
  | ret => cases target <;> cases h
  | reti => cases c <;> cases target <;> cases h
  | rst =>
    rcases c with _ | c
    · exact ofRestart_ne_encoding h
    · cases h

theorem ofRotate_ne_encoding {op : RotateOp} {operand : Option Operand} :
    ofRotate e op operand ≠ .error (.malformed (.encoding reason)) := by
  intro h
  unfold ofRotate at h
  split at h
  · rcases require_bind_eq_error_iff.mp h with ⟨-, h⟩ | ⟨o, -, h⟩
    · cases h
    · split at h <;> cases h
  · split at h
    case h_5 => cases h
    all_goals split at h <;> cases h

/-- Operands are never refused because of the bytes. -/
theorem ofOperation_ne_encoding {op : Operation} :
    ofOperation e op ≠ .error (.malformed (.encoding reason)) := by
  unfold ofOperation
  split
  · exact ofArithmetic8_ne_encoding
  · exact ofArithmetic16_ne_encoding
  · exact ofBitwise_ne_encoding
  · exact ofLoad_ne_encoding
  · exact ofJump_ne_encoding
  · exact ofRotate_ne_encoding
  · intro h
    cases h

end Instruction

/-! ## Descriptors -/

/-- What is only found of operands that make an instruction. -/
inductive Defect.Late : Defect → Prop
  | immediates (expected bytes : List UInt8) : Late (.immediates expected bytes)
  | durationTooShort (declared : UInt8) : Late (.durationTooShort declared)
  | duration (declared : Nat) (outcome : Option Outcome) (spanned : Nat) :
      Late (.duration declared outcome spanned)

theorem Instruction.refusal_of_decode {e : Encoding} {op : Operation} {refusal : Refusal}
    (h : decode e op = .error refusal) :
    ofOperation e op = .error refusal ∨ ∃ defect, refusal = .malformed defect ∧ defect.Late := by
  rcases bind_eq_error_iff.mp h with h | ⟨i, -, h⟩
  · exact Or.inl h
  · split at h
    · cases h
    · cases h
      exact Or.inr ⟨_, rfl, .immediates _ _⟩

theorem Trace.late_of_checkDuration {declared : UInt8} {saved : Nat} {t : Trace}
    {refusal : Refusal} (h : t.checkDuration declared saved = .error refusal) :
    ∃ defect, refusal = .malformed defect ∧ defect.Late := by
  unfold checkDuration at h
  split at h
  · cases h
    exact ⟨_, rfl, .durationTooShort _⟩
  · split at h
    · cases h
      exact ⟨_, rfl, .duration _ _ _⟩
    · cases h

namespace Descriptor

variable {d : Descriptor}

/-- Behind its bytes and its operands, all that is refused of a descriptor is a late defect. -/
theorem refusal_of_assemble {e : Encoding} {refusal : Refusal} (he : d.encoding = .ok e)
    (h : d.assemble = .error refusal) :
    Instruction.ofOperation e d.operation = .error refusal ∨
      ∃ defect, refusal = .malformed defect ∧ defect.Late := by
  rw [assemble, stream_eq_ok_iff.mpr he] at h
  rcases bind_eq_error_iff.mp h with h | ⟨_, heq, h⟩
  · cases h
  cases heq
  rcases bind_eq_error_iff.mp h with h | ⟨i, -, h⟩
  · exact Instruction.refusal_of_decode h
  rcases bind_eq_error_iff.mp h with h | ⟨_, -, h⟩
  · obtain ⟨t, -, ht⟩ := exists_error_of_forM h
    exact Or.inr (Trace.late_of_checkDuration ht)
  · cases h

theorem stream_eq_error_iff {reason : EncodingError} :
    d.stream = .error (.malformed (.encoding reason)) ↔ d.encoding = .error reason := by
  rw [stream]
  split <;> simp_all

/-- A refusal that tells of the bytes comes from the bytes. -/
theorem assemble_eq_encodingError_iff {reason : EncodingError} :
    d.assemble = .error (.malformed (.encoding reason)) ↔ d.encoding = .error reason := by
  constructor
  · intro h
    cases he : d.encoding with
    | error reason' =>
        rw [assemble, stream_eq_error_iff.mpr he] at h
        cases h
        rfl
    | ok e =>
        rcases refusal_of_assemble he h with hop | ⟨defect, heq, hlate⟩
        · exact absurd hop Instruction.ofOperation_ne_encoding
        · cases heq
          cases hlate
  · intro he
    rw [assemble, stream_eq_error_iff.mpr he]
    rfl

/-- With a stream, being unsupported is a matter of the operands. -/
theorem assemble_eq_unsupported_iff {e : Encoding} {gap : Gap} (he : d.encoding = .ok e) :
    d.assemble = .error (.unsupported gap) ↔
      Instruction.ofOperation e d.operation = .error (.unsupported gap) := by
  constructor
  · intro h
    rcases refusal_of_assemble he h with hop | ⟨defect, heq, -⟩
    · exact hop
    · cases heq
  · exact assemble_of_refusal he

end Descriptor

end GoldenTrace
