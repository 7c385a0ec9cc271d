import GoldenTrace.Instruction.Decode
import GoldenTrace.Proofs.Assembly

/-!
# Which operations are instructions

An operation is an instruction if its operands have one of the shapes that are
known. The shapes are listed here once, as a relation between operations and
the instructions they denote, and decoding is shown to follow it. Whatever
depends on the operands of an accepted descriptor is proved by cases of this
relation.
-/

namespace GoldenTrace

/-! ## Places, sources and loads -/

/-- The operand that denotes a place. -/
def Place.operand : Place → Operand
  | register r => .reg8 r
  | pointer rr => ⟨.register16 rr, true⟩

theorem Place.ofOperand?_eq_some_iff {o : Operand} {p : Place} :
    ofOperand? o = some p ↔ o = p.operand := by
  constructor
  · intro h
    unfold ofOperand? at h
    split at h <;> cases h <;> rfl
  · rintro rfl
    cases p <;> rfl

@[simp] theorem Place.ofOperand?_operand (p : Place) : ofOperand? p.operand = some p :=
  ofOperand?_eq_some_iff.mpr rfl

/-- The operand that denotes a source. -/
def Source.operand : Source → Operand
  | place p => p.operand
  | immediate v => ⟨.imm8 v, false⟩

theorem Source.ofOperand?_eq_some_iff {o : Operand} {s : Source} :
    ofOperand? o = some s ↔ o = s.operand := by
  constructor
  · intro h
    unfold ofOperand? at h
    split at h
    · cases h
      rfl
    · obtain ⟨p, hp, rfl⟩ := Option.map_eq_some_iff.mp h
      exact Place.ofOperand?_eq_some_iff.mp hp
  · rintro rfl
    cases s with
    | place p => cases p <;> rfl
    | immediate v => rfl

@[simp] theorem Source.ofOperand?_operand (s : Source) : ofOperand? s.operand = some s :=
  ofOperand?_eq_some_iff.mpr rfl

/-- The adjustment that steps a pointer. -/
def PostLoad.ofStep : Option Step → PostLoad
  | Option.none => none
  | some .up => increment
  | some .down => decrement

theorem PostLoad.step?_eq_some_iff {post : PostLoad} {s : Option Step} :
    post.step? = some s ↔ post = ofStep s := by
  constructor
  · intro h
    cases post <;> cases h <;> rfl
  · rintro rfl
    rcases s with _ | s
    · rfl
    · cases s <;> rfl

namespace Load

/-- The destination operand of a load. -/
def dst : Load → Operand
  | register dst _ | fromPointer dst _ _ | immediate dst _ | highLoad dst _ | absoluteLoad dst _
  | indexedLoad dst _ => .reg8 dst
  | toPointer ptr _ _ | pointerImmediate ptr _ => ⟨.register16 ptr, true⟩
  | pairImmediate dst _ | pop dst => .reg16 dst
  | storeStackPointer a | absoluteStore a _ => ⟨.imm16 a, true⟩
  | push _ => ⟨.register16 .sp, true⟩
  | highStore offset _ => ⟨.imm8 offset, true⟩
  | indexedStore index _ => ⟨.register8 index, true⟩
  | stackFromHl => .reg16 .sp
  | hlFromStack _ => .reg16 .hl

/-- The source operand of a load. -/
def src : Load → Operand
  | register _ src | toPointer _ src _ | highStore _ src | absoluteStore _ src
  | indexedStore _ src => .reg8 src
  | fromPointer _ ptr _ => ⟨.register16 ptr, true⟩
  | pairImmediate _ v => ⟨.imm16 v, false⟩
  | immediate _ v | pointerImmediate _ v => ⟨.imm8 v, false⟩
  | storeStackPointer _ | hlFromStack _ => .reg16 .sp
  | pop _ => ⟨.register16 .sp, true⟩
  | push src => .reg16 src
  | highLoad _ offset => ⟨.imm8 offset, true⟩
  | absoluteLoad _ a => ⟨.imm16 a, true⟩
  | indexedLoad _ index => ⟨.register8 index, true⟩
  | stackFromHl => .reg16 .hl

/-- The adjustment that comes with a load. -/
def postLoad : Load → PostLoad
  | fromPointer _ _ step | toPointer _ _ step => .ofStep step
  | hlFromStack d => .addSigned d
  | _ => .none

/-- The stack pointer is no pair to load through, and it is not pushed or
popped itself. -/
def Legal : Load → Prop
  | fromPointer _ ptr _ | toPointer ptr _ _ | pointerImmediate ptr _ => ptr ≠ .sp
  | pop rr | push rr => rr ≠ .sp
  | _ => True

/-- A load through a pair may step, but the pair is not the stack pointer. -/
theorem through_eq_some_iff {ptr : Reg16} {post : PostLoad} {f : Option Step → Load} {l : Load} :
    (if ptr = .sp then none else post.step?.map f) = some l ↔
      ptr ≠ .sp ∧ ∃ step, post = .ofStep step ∧ f step = l := by
  by_cases hptr : ptr = .sp
  · simp [hptr]
  · simp [hptr, PostLoad.step?_eq_some_iff]

theorem legal_of_ofOperands? {dst src : Operand} {post : PostLoad} {l : Load}
    (h : ofOperands? dst src post = some l) :
    dst = l.dst ∧ src = l.src ∧ post = l.postLoad ∧ l.Legal := by
  obtain ⟨dst, dstPointer⟩ := dst
  obtain ⟨src, srcPointer⟩ := src
  -- by the shapes of both operands; only stepping loads leave `post` open
  cases dst with
  | register8 r =>
    cases dstPointer <;> cases src <;> cases srcPointer
    case false.register16.true ptr =>
      obtain ⟨hptr, step, rfl, rfl⟩ := through_eq_some_iff.mp h
      exact ⟨rfl, rfl, rfl, hptr⟩
    all_goals cases post <;> cases h <;> exact ⟨rfl, rfl, rfl, trivial⟩
  | register16 rr =>
    cases dstPointer <;> cases src <;> cases srcPointer
    case true.register8.false s =>
      obtain ⟨hptr, step, rfl, rfl⟩ := through_eq_some_iff.mp h
      exact ⟨rfl, rfl, rfl, hptr⟩
    case false.register16.false src | false.register16.true src | true.register16.false src =>
      cases rr <;> cases src <;> cases post <;> cases h <;> exact ⟨rfl, rfl, rfl, by simp [Legal]⟩
    all_goals cases rr <;> cases post <;> cases h <;> exact ⟨rfl, rfl, rfl, by simp [Legal]⟩
  | imm16 a =>
    cases dstPointer <;> cases src <;> cases srcPointer
    case true.register16.false src | true.register16.true src =>
      cases src <;> cases post <;> cases h <;> exact ⟨rfl, rfl, rfl, trivial⟩
    all_goals cases post <;> cases h <;> exact ⟨rfl, rfl, rfl, trivial⟩
  | imm8 v | signedImm8 v =>
    cases dstPointer <;> cases src <;> cases srcPointer <;> cases post <;> cases h
    all_goals exact ⟨rfl, rfl, rfl, trivial⟩

theorem ofOperands?_eq_some_iff {dst src : Operand} {post : PostLoad} {l : Load} :
    ofOperands? dst src post = some l ↔
      dst = l.dst ∧ src = l.src ∧ post = l.postLoad ∧ l.Legal := by
  constructor
  · exact legal_of_ofOperands?
  · rintro ⟨rfl, rfl, rfl, h⟩
    cases l
    case fromPointer dst ptr step => exact through_eq_some_iff.mpr ⟨h, step, rfl, rfl⟩
    case toPointer ptr src step => exact through_eq_some_iff.mpr ⟨h, step, rfl, rfl⟩
    case pointerImmediate ptr v => exact if_neg h
    case push rr => exact if_neg h
    -- HL as a destination has a shape of its own, so the pair is looked at
    case pop rr =>
      cases rr
      case sp => exact absurd rfl h
      all_goals rfl
    case pairImmediate rr v => cases rr <;> rfl
    all_goals rfl

end Load

/-! ## Operations -/

theorem require_eq_ok_iff {α : Type} {part : Part} {o : Option α} {a : α} :
    require part o = .ok a ↔ o = some a := by
  cases o with
  | none => simp [require]
  | some b => simp [require]

theorem require_bind_eq_ok_iff {α β : Type} {part : Part} {o : Option α} {f : α → Decoded β}
    {b : β} : (require part o >>= f) = .ok b ↔ ∃ a, o = some a ∧ f a = .ok b := by
  simp only [bind_eq_ok_iff, require_eq_ok_iff]

/-- An operand that is either left out or the accumulator. -/
def Operand.Accumulator (o : Option Operand) : Prop :=
  o = none ∨ o = some (.reg8 .a)

theorem Operand.filter_eq_none_iff {o : Option Operand} :
    o.filter (· ≠ .reg8 .a) = none ↔ Accumulator o := by
  cases o with
  | none => simp [Accumulator]
  | some o => simp [Accumulator]

namespace Instruction

/-- The instructions that operations denote, by the shapes of their operands.
The bytes select the bit of a bitwise operation, the vector of a restart and
the page of a rotation. -/
inductive Denotes (e : Encoding) : Operation → Instruction → Prop
  | alu {op : ArithOp} {a : AluOp} {lhs : Option Operand} (hop : op.role = .alu a)
      (hlhs : Operand.Accumulator lhs) (s : Source) :
      Denotes e (.arithmetic8 op lhs (some s.operand)) (alu a s)
  | step8 {op : ArithOp} {s : Step} (hop : op.role = .step s) (p : Place)
      (rhs : Option Operand) : Denotes e (.arithmetic8 op (some p.operand) rhs) (step8 s p)
  | adjust {op : ArithOp} {a : Adjustment} (hop : op.role = .adjust a)
      (lhs rhs : Option Operand) : Denotes e (.arithmetic8 op lhs rhs) (adjust a)
  | increment (rr : Reg16) :
      Denotes e (.arithmetic16 .inc (some (.reg16 rr)) none) (step16 .up rr)
  | decrement (rr : Reg16) :
      Denotes e (.arithmetic16 .dec (some (.reg16 rr)) none) (step16 .down rr)
  | addHl (rr : Reg16) :
      Denotes e (.arithmetic16 .add (some (.reg16 .hl)) (some (.reg16 rr))) (addHl rr)
  | addSp (d : Int8) :
      Denotes e (.arithmetic16 .add (some (.reg16 .sp)) (some ⟨.signedImm8 d, false⟩)) (addSp d)
  | bitwise {op : BitOp} {bit payload : UInt8} (hpayload : e.payload? = some payload)
      (hbit : selectedBit? op payload = some bit.toNat) (p : Place) :
      Denotes e (.bitwise op (some bit) (some p.operand)) (bitwise op bit p)
  | load (l : Load) (h : l.Legal) :
      Denotes e (.load (some l.dst) (some l.src) l.postLoad) (load l)
  | jump (c : Option Condition) (a : UInt16) :
      Denotes e (.jump .jp c (some ⟨.imm16 a, false⟩)) (transfer (.jump c a))
  | jumpHl (pointer : Bool) :
      Denotes e (.jump .jp none (some ⟨.register16 .hl, pointer⟩)) (transfer .jumpHl)
  | relative (c : Option Condition) (d : Int8) :
      Denotes e (.jump .jr c (some ⟨.signedImm8 d, false⟩)) (transfer (.relative c d))
  | call (c : Option Condition) (a : UInt16) :
      Denotes e (.jump .call c (some ⟨.imm16 a, false⟩)) (transfer (.call c a))
  | ret (c : Option Condition) : Denotes e (.jump .ret c none) (transfer (.ret c))
  | reti : Denotes e (.jump .reti none none) (transfer .reti)
  | restart {target : Option Operand}
      (h : ∀ o ∈ target, namesVector (vectorOf e.lead) o.kind = true) :
      Denotes e (.jump .rst none target) (transfer (.restart (vectorOf e.lead).toUInt16))
  | rotate (op : RotateOp) {payload : UInt8} (hpayload : e.payload? = some payload)
      (p : Place) : Denotes e (.rotate op (some p.operand)) (rotate op p)
  | rotateA {op : RotateOp} (hpage : e.payload? = none)
      (hop : op = .rlc ∨ op = .rrc ∨ op = .rl ∨ op = .rr) {operand : Option Operand}
      (h : Operand.Accumulator operand) : Denotes e (.rotate op operand) (rotateA op)
  | control (op : ControlOp) : Denotes e (.control op) (control op)

section

variable {e : Encoding} {i : Instruction}

theorem denotes_of_ofAlu {op : ArithOp} {a : AluOp} {lhs rhs : Option Operand}
    (hop : op.role = .alu a) (h : ofAlu a lhs rhs = .ok i) :
    Denotes e (.arithmetic8 op lhs rhs) i := by
  unfold ofAlu at h
  split at h
  case h_1 => cases h
  case h_2 hlhs =>
    obtain ⟨o, rfl, hsource⟩ := require_bind_eq_ok_iff.mp h
    split at hsource
    case h_1 s hs =>
      cases hsource
      rw [Source.ofOperand?_eq_some_iff.mp hs]
      exact .alu hop (Operand.filter_eq_none_iff.mp hlhs) s
    case h_2 => cases hsource

theorem denotes_of_ofArithmetic8 {op : ArithOp} {lhs rhs : Option Operand}
    (h : ofArithmetic8 op lhs rhs = .ok i) : Denotes e (.arithmetic8 op lhs rhs) i := by
  unfold ofArithmetic8 at h
  split at h
  case h_1 a hop => exact denotes_of_ofAlu hop h
  case h_2 a hop =>
    cases h
    exact .adjust hop lhs rhs
  case h_3 s hop =>
    obtain ⟨o, rfl, hplace⟩ := require_bind_eq_ok_iff.mp h
    split at hplace
    case h_1 p hp =>
      cases hplace
      rw [Place.ofOperand?_eq_some_iff.mp hp]
      exact .step8 hop p rhs
    case h_2 => cases hplace

theorem denotes_of_ofArithmetic16 {op : ArithOp} {lhs rhs : Option Operand}
    (h : ofArithmetic16 op lhs rhs = .ok i) : Denotes e (.arithmetic16 op lhs rhs) i := by
  obtain ⟨o, rfl, hshape⟩ := require_bind_eq_ok_iff.mp h
  split at hshape <;> cases hshape
  · exact .increment _
  · exact .decrement _
  · exact .addHl _
  · exact .addSp _

theorem denotes_of_ofBitwise {op : BitOp} {bit : Option UInt8} {operand : Option Operand}
    (h : ofBitwise e op bit operand = .ok i) : Denotes e (.bitwise op bit operand) i := by
  obtain ⟨declared, rfl, hoperand⟩ := require_bind_eq_ok_iff.mp h
  obtain ⟨o, rfl, hpage⟩ := require_bind_eq_ok_iff.mp hoperand
  split at hpage
  case h_1 => cases hpage
  case h_2 payload hpayload =>
    split at hpage
    case h_1 => cases hpage
    case h_2 selected hselected =>
      split at hpage
      case isTrue => cases hpage
      case isFalse hdeclared =>
        have hbit : selected = declared.toNat := Decidable.of_not_not hdeclared
        split at hpage
        case h_1 p hp =>
          cases hpage
          rw [Place.ofOperand?_eq_some_iff.mp hp]
          exact .bitwise hpayload (hbit ▸ hselected) p
        case h_2 => cases hpage

theorem denotes_of_ofLoad {dst src : Option Operand} {post : PostLoad}
    (h : ofLoad dst src post = .ok i) : Denotes e (.load dst src post) i := by
  obtain ⟨d, rfl, hsrc⟩ := require_bind_eq_ok_iff.mp h
  obtain ⟨s, rfl, hload⟩ := require_bind_eq_ok_iff.mp hsrc
  split at hload
  case h_1 l hl =>
    cases hload
    obtain ⟨rfl, rfl, rfl, hlegal⟩ := Load.ofOperands?_eq_some_iff.mp hl
    exact .load l hlegal
  case h_2 => cases hload

theorem denotes_of_ofRestart {target : Option Operand} (h : ofRestart e.lead target = .ok i) :
    Denotes e (.jump .rst none target) i := by
  unfold ofRestart at h
  split at h
  case h_1 =>
    cases h
    exact .restart (by simp)
  case h_2 o =>
    split at h
    case isTrue hvector =>
      cases h
      exact .restart (by simpa using hvector)
    case isFalse => cases h

theorem denotes_of_ofJump {kind : JumpKind} {c : Option Condition} {target : Option Operand}
    (h : ofJump e kind c target = .ok i) : Denotes e (.jump kind c target) i := by
  cases kind with
  | jp =>
    rcases target with _ | ⟨operand, pointer⟩
    · cases c <;> cases h
    · cases operand with
      | imm16 a => cases c <;> cases pointer <;> cases h <;> exact .jump _ a
      | register16 rr =>
        cases c <;> cases rr <;> cases h
        exact .jumpHl pointer
      | _ => cases c <;> cases h
  | jr =>
    rcases target with _ | ⟨operand, pointer⟩
    · cases h
    · cases operand <;> cases pointer <;> cases h
      exact .relative c _
  | call =>
    rcases target with _ | ⟨operand, pointer⟩
    · cases h
    · cases operand <;> cases pointer <;> cases h
      exact .call c _
  | ret =>
    cases target <;> cases h
    exact .ret c
  | reti =>
    cases c <;> cases target <;> cases h
    exact .reti
  | rst =>
    cases c with
    | none => exact denotes_of_ofRestart h
    | some c => cases h

theorem denotes_of_ofRotate {op : RotateOp} {operand : Option Operand}
    (h : ofRotate e op operand = .ok i) : Denotes e (.rotate op operand) i := by
  unfold ofRotate at h
  split at h
  case h_1 payload hpayload =>
    obtain ⟨o, rfl, hplace⟩ := require_bind_eq_ok_iff.mp h
    split at hplace
    case h_1 p hp =>
      cases hplace
      rw [Place.ofOperand?_eq_some_iff.mp hp]
      exact .rotate op hpayload p
    case h_2 => cases hplace
  case h_2 hpage =>
    split at h
    case h_5 => cases h
    all_goals
      split at h
      case h_1 => cases h
      case h_2 hoperand =>
        cases h
        exact .rotateA hpage (by simp) (Operand.filter_eq_none_iff.mp hoperand)

/-- Everything that decodes has one of the known shapes. -/
theorem denotes_of_ofOperation {op : Operation} (h : ofOperation e op = .ok i) :
    Denotes e op i := by
  cases op with
  | arithmetic8 op lhs rhs => exact denotes_of_ofArithmetic8 h
  | arithmetic16 op lhs rhs => exact denotes_of_ofArithmetic16 h
  | bitwise op bit operand => exact denotes_of_ofBitwise h
  | load dst src post => exact denotes_of_ofLoad h
  | jump kind c target => exact denotes_of_ofJump h
  | rotate op operand => exact denotes_of_ofRotate h
  | control op =>
      cases h
      exact .control op

/-- Every known shape decodes to what it denotes. -/
theorem Denotes.ofOperation {op : Operation} (h : Denotes e op i) : ofOperation e op = .ok i := by
  cases h with
  | @alu op a lhs hop hlhs s =>
      have hlhs := Operand.filter_eq_none_iff.mpr hlhs
      simp only [Instruction.ofOperation, ofArithmetic8, hop, ofAlu, hlhs]
      exact require_bind_eq_ok_iff.mpr ⟨_, rfl, by rw [Source.ofOperand?_operand]; rfl⟩
  | @step8 op s hop p rhs =>
      simp only [Instruction.ofOperation, ofArithmetic8, hop]
      exact require_bind_eq_ok_iff.mpr ⟨_, rfl, by rw [Place.ofOperand?_operand]; rfl⟩
  | adjust hop lhs rhs =>
      simp only [Instruction.ofOperation, ofArithmetic8, hop]
  | @bitwise op bit payload hpayload hbit p =>
      refine require_bind_eq_ok_iff.mpr ⟨_, rfl, require_bind_eq_ok_iff.mpr ⟨_, rfl, ?_⟩⟩
      simp only [hpayload, hbit, Place.ofOperand?_operand, ne_eq, not_true_eq_false, if_false]
      rfl
  | load l h =>
      have hload := Load.ofOperands?_eq_some_iff.mpr ⟨rfl, rfl, rfl, h⟩
      refine require_bind_eq_ok_iff.mpr ⟨_, rfl, require_bind_eq_ok_iff.mpr ⟨_, rfl, ?_⟩⟩
      simp only [hload]
      rfl
  | @restart target h =>
      show ofRestart e.lead target = _
      cases target with
      | none => rfl
      | some o => rw [ofRestart, if_pos (h o rfl)]
  | rotate op hpayload p =>
      simp only [Instruction.ofOperation, ofRotate, hpayload]
      exact require_bind_eq_ok_iff.mpr ⟨_, rfl, by rw [Place.ofOperand?_operand]; rfl⟩
  | rotateA hpage hop h =>
      have hoperand := Operand.filter_eq_none_iff.mpr h
      rcases hop with rfl | rfl | rfl | rfl <;>
        simp only [Instruction.ofOperation, ofRotate, hpage, hoperand]
  | _ => rfl

/-- **Shapes of operands.** An operation decodes to an instruction exactly if it
has a shape that denotes it. -/
theorem ofOperation_eq_ok_iff {op : Operation} :
    Instruction.ofOperation e op = .ok i ↔ Denotes e op i :=
  ⟨denotes_of_ofOperation, Denotes.ofOperation⟩

/-- A descriptor decodes to an instruction exactly if its operation denotes it
and the bytes behind the opcode fit. -/
theorem decode_eq_ok_iff {op : Operation} :
    decode e op = .ok i ↔ Denotes e op i ∧ i.fits e = true := by
  rw [decode, bind_eq_ok_iff]
  simp only [ofOperation_eq_ok_iff]
  constructor
  · rintro ⟨j, hj, h⟩
    split at h
    · cases h
      exact ⟨hj, ‹_›⟩
    · cases h
  · rintro ⟨hi, hfits⟩
    refine ⟨i, hi, ?_⟩
    rw [if_pos hfits]
    rfl

end

end Instruction

end GoldenTrace
