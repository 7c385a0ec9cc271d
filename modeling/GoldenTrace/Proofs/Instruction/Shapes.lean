import GoldenTrace.Proofs.Shape

/-!
# Decoding by shapes

Decoding matches operands by their shapes: no shape of operands is told from another by the
value of a constant. Only the target of a restart is compared with the opcode, and this
refuses a descriptor that contradicts itself but never makes another instruction of it.
-/

namespace GoldenTrace

/-! ## Operands -/

namespace Operand

theorem shape_eq_reg8_iff {o : Operand} {r : Reg8} : o.shape = .reg8 r ↔ o = .reg8 r := by
  obtain ⟨kind, pointer⟩ := o
  cases kind <;> simp [shape, Kind.shape, reg8]

theorem filter_shape (o : Option Operand) :
    (o.map shape).filter (· ≠ .reg8 .a) = (o.filter (· ≠ .reg8 .a)).map shape := by
  cases o with
  | none => rfl
  | some o =>
      have hiff : decide (o.shape ≠ .reg8 .a) = decide (o ≠ .reg8 .a) :=
        decide_eq_decide.mpr (not_congr shape_eq_reg8_iff)
      rw [Option.map_some, Option.filter_some, Option.filter_some, hiff]
      split <;> rfl

end Operand

theorem Place.ofOperand?_shape (o : Operand) : ofOperand? o.shape = ofOperand? o := by
  obtain ⟨kind, pointer⟩ := o
  cases kind <;> cases pointer <;> rfl

theorem Source.ofOperand?_shape (o : Operand) :
    ofOperand? o.shape = (ofOperand? o).map shape := by
  obtain ⟨kind, pointer⟩ := o
  cases kind <;> cases pointer <;> rfl

theorem PostLoad.step?_shape (post : PostLoad) : post.shape.step? = post.step? := by
  cases post <;> rfl

namespace Load

theorem through_shape {ptr : Reg16} {post : PostLoad} {f : Option Step → Load}
    (hf : ∀ step, (f step).shape = f step) :
    (if ptr = .sp then none else post.shape.step?.map f) =
      (if ptr = .sp then none else post.step?.map f).map shape := by
  by_cases hptr : ptr = .sp
  · rw [if_pos hptr, if_pos hptr, Option.map_none]
  · rw [if_neg hptr, if_neg hptr, PostLoad.step?_shape, Option.map_map]
    exact congrArg (post.step?.map ·) (funext fun step => (hf step).symm)

theorem ofOperands?_shape (dst src : Operand) (post : PostLoad) :
    ofOperands? dst.shape src.shape post.shape = (ofOperands? dst src post).map shape := by
  obtain ⟨dst, dstPointer⟩ := dst
  obtain ⟨src, srcPointer⟩ := src
  cases dst with
  | register8 r =>
    cases dstPointer <;> cases src <;> cases srcPointer
    case false.register16.true ptr => exact through_shape fun _ => rfl
    all_goals cases post <;> rfl
  | register16 rr =>
    cases dstPointer <;> cases src <;> cases srcPointer
    case true.register8.false s => exact through_shape fun _ => rfl
    case false.register16.false src | false.register16.true src | true.register16.false src =>
      cases rr <;> cases src <;> cases post <;> rfl
    all_goals cases rr <;> cases post <;> rfl
  | imm16 a =>
    cases dstPointer <;> cases src <;> cases srcPointer
    case true.register16.false src | true.register16.true src =>
      cases src <;> cases post <;> rfl
    all_goals cases post <;> rfl
  | imm8 v | signedImm8 v =>
    cases dstPointer <;> cases src <;> cases srcPointer <;> cases post <;> rfl

end Load

/-! ## Operations -/

namespace Instruction

/-- A decoding without constants: the shape of the instruction, or the kind of the refusal. -/
inductive Decoding where
  | instruction (i : Instruction)
  | unsupported
  | malformed

namespace Decoding

def of : Decoded Instruction → Decoding
  | .ok i => .instruction i.shape
  | .error (.unsupported _) => .unsupported
  | .error (.malformed _) => .malformed

theorem of_eq_unsupported_iff {x : Decoded Instruction} :
    of x = .unsupported ↔ ∃ gap, x = .error (.unsupported gap) := by
  rcases x with (gap | defect) | i <;> simp [of]

theorem of_require {α : Type} {part : Part} {o : Option α} {g : α → α}
    {f f' : α → Decoded Instruction} (h : ∀ a, of (f' (g a)) = of (f a)) :
    of (require part (o.map g) >>= f') = of (require part o >>= f) := by
  cases o with
  | none => rfl
  | some a => exact h a

end Decoding

open Decoding

theorem of_ofAlu (op : AluOp) (lhs rhs : Option Operand) :
    of (ofAlu op (lhs.map Operand.shape) (rhs.map Operand.shape)) = of (ofAlu op lhs rhs) := by
  unfold ofAlu
  rw [Operand.filter_shape]
  cases lhs.filter (· ≠ .reg8 .a) with
  | some o => rfl
  | none =>
      apply of_require
      intro o
      rw [Source.ofOperand?_shape]
      cases Source.ofOperand? o with
      | none => rfl
      | some s => exact congrArg (fun s => instruction (alu op s)) s.shape_shape

theorem of_ofArithmetic8 (op : ArithOp) (lhs rhs : Option Operand) :
    of (ofArithmetic8 op (lhs.map Operand.shape) (rhs.map Operand.shape)) =
      of (ofArithmetic8 op lhs rhs) := by
  unfold ofArithmetic8
  cases op.role with
  | alu a => exact of_ofAlu a lhs rhs
  | adjust a => rfl
  | step s =>
      apply of_require
      intro o
      rw [Place.ofOperand?_shape]
      cases Place.ofOperand? o <;> rfl

theorem of_ofArithmetic16 (op : ArithOp) (lhs rhs : Option Operand) :
    of (ofArithmetic16 op (lhs.map Operand.shape) (rhs.map Operand.shape)) =
      of (ofArithmetic16 op lhs rhs) := by
  apply of_require
  rintro ⟨kind, pointer⟩
  cases op
  case inc | dec => cases kind <;> cases pointer <;> cases rhs <;> rfl
  case add =>
    cases kind with
    | register16 rr =>
      rcases rhs with _ | ⟨kind, pointer'⟩
      · cases rr <;> cases pointer <;> rfl
      · cases rr <;> cases pointer <;> cases kind <;> cases pointer' <;> rfl
    | _ => cases pointer <;> cases rhs <;> rfl
  all_goals rfl

theorem of_ofBitwise (e : Encoding) (op : BitOp) (bit : Option UInt8) (operand : Option Operand) :
    of (ofBitwise e op bit (operand.map Operand.shape)) = of (ofBitwise e op bit operand) := by
  unfold ofBitwise
  cases bit with
  | none => rfl
  | some declared =>
    apply of_require
    intro o
    rw [Place.ofOperand?_shape]
    cases e.payload? with
    | none => rfl
    | some payload =>
      cases hselected : selectedBit? op payload with
      | none => simp only [hselected]
      | some selected =>
        simp only [hselected]
        split
        · rfl
        · cases Place.ofOperand? o <;> rfl

theorem of_ofLoad (dst src : Option Operand) (post : PostLoad) :
    of (ofLoad (dst.map Operand.shape) (src.map Operand.shape) post.shape) =
      of (ofLoad dst src post) := by
  apply of_require
  intro d
  apply of_require
  intro s
  rw [Load.ofOperands?_shape]
  cases Load.ofOperands? d s post with
  | none => rfl
  | some l => exact congrArg (fun l => instruction (load l)) l.shape_shape

theorem of_ofRotate (e : Encoding) (op : RotateOp) (operand : Option Operand) :
    of (ofRotate e op (operand.map Operand.shape)) = of (ofRotate e op operand) := by
  unfold ofRotate
  cases e.payload? with
  | some payload =>
      apply of_require
      intro o
      rw [Place.ofOperand?_shape]
      cases Place.ofOperand? o <;> rfl
  | none =>
      rw [Operand.filter_shape]
      cases operand.filter (· ≠ .reg8 .a) <;> cases op <;> rfl

theorem of_ofJump {e : Encoding} {kind : JumpKind} {c : Option Condition}
    (h : ¬ (kind = .rst ∧ c = none)) (target : Option Operand) :
    of (ofJump e kind c (target.map Operand.shape)) = of (ofJump e kind c target) := by
  cases kind with
  | jp =>
    rcases target with _ | ⟨operand, pointer⟩
    · cases c <;> rfl
    · cases operand with
      | register16 rr => cases c <;> cases rr <;> rfl
      | _ => cases c <;> cases pointer <;> rfl
  | jr | call =>
    rcases target with _ | ⟨operand, pointer⟩
    · rfl
    · cases operand <;> cases pointer <;> rfl
  | ret => cases target <;> rfl
  | reti => cases c <;> cases target <;> rfl
  | rst =>
    rcases c with _ | c
    · exact absurd ⟨rfl, rfl⟩ h
    · rfl

/-- The target of a restart is looked at, but only to refuse it. -/
theorem of_ofRestart (lead : UInt8) (target : Option Operand) :
    of (ofRestart lead target) =
        .instruction (transfer (.restart (vectorOf lead).toUInt16)) ∨
      of (ofRestart lead target) = .malformed := by
  unfold ofRestart
  split
  · exact Or.inl rfl
  · split
    · exact Or.inl rfl
    · exact Or.inr rfl

theorem shape_eq_restart {op : Operation} {target : Option Operand}
    (h : op.shape = .jump .rst none target) : ∃ target', op = .jump .rst none target' := by
  cases op <;> cases h
  exact ⟨_, rfl⟩

/-- Decoding commutes with shapes, but for restarts. -/
theorem of_ofOperation {e : Encoding} {op : Operation}
    (h : ∀ target, op ≠ .jump .rst none target) :
    of (ofOperation e op.shape) = of (ofOperation e op) := by
  cases op with
  | arithmetic8 op lhs rhs => exact of_ofArithmetic8 op lhs rhs
  | arithmetic16 op lhs rhs => exact of_ofArithmetic16 op lhs rhs
  | bitwise op bit operand => exact of_ofBitwise e op bit operand
  | load dst src post => exact of_ofLoad dst src post
  | jump kind c target =>
      apply of_ofJump
      rintro ⟨rfl, rfl⟩
      exact h target rfl
  | rotate op operand => exact of_ofRotate e op operand
  | control op => rfl

/-- Of the bytes, decoding looks at the opcode alone. -/
theorem ofOperation_congr {e e' : Encoding} (hlead : e.lead = e'.lead)
    (hpayload : e.payload? = e'.payload?) (op : Operation) :
    ofOperation e op = ofOperation e' op := by
  cases op with
  | bitwise op bit operand =>
      show ofBitwise e op bit operand = ofBitwise e' op bit operand
      unfold ofBitwise
      rw [hpayload]
  | jump kind c target =>
      show ofJump e kind c target = ofJump e' kind c target
      unfold ofJump
      rw [hlead]
  | rotate op operand =>
      show ofRotate e op operand = ofRotate e' op operand
      unfold ofRotate
      rw [hpayload]
  | _ => rfl

/-- Two decodings are both unsupported or neither of them is, and if they are instructions,
these have one shape. -/
structure Decoding.Agree (x y : Decoding) : Prop where
  unsupported_iff : x = .unsupported ↔ y = .unsupported
  shape : ∀ i j, x = .instruction i → y = .instruction j → i = j

theorem Decoding.agree_of_eq {x y : Decoding} (h : x = y) : Agree x y := by
  subst h
  refine ⟨Iff.rfl, ?_⟩
  intro i j hi hj
  rw [hi] at hj
  cases hj
  rfl

theorem Decoding.agree_of_sole {x y : Decoding} {i : Instruction}
    (hx : x = .instruction i ∨ x = .malformed) (hy : y = .instruction i ∨ y = .malformed) :
    Agree x y := by
  rcases hx with rfl | rfl <;> rcases hy with rfl | rfl <;> constructor <;> simp

/-- **Decoding looks at shapes.** -/
theorem agree_ofOperation {e : Encoding} {op op' : Operation} (h : op.shape = op'.shape) :
    Agree (of (ofOperation e op)) (of (ofOperation e op')) := by
  by_cases hrestart : ∃ target, op = .jump .rst none target
  · obtain ⟨target, rfl⟩ := hrestart
    obtain ⟨target', rfl⟩ := shape_eq_restart h.symm
    -- neither is unsupported, and the vector is that of the opcode
    exact agree_of_sole (of_ofRestart e.lead target) (of_ofRestart e.lead target')
  · have hop : ∀ target, op ≠ .jump .rst none target := by
      intro target heq
      exact hrestart ⟨target, heq⟩
    have hop' : ∀ target, op' ≠ .jump .rst none target := by
      rintro target rfl
      exact hrestart (shape_eq_restart h)
    apply agree_of_eq
    rw [← of_ofOperation hop, h, of_ofOperation hop']

end Instruction

end GoldenTrace
