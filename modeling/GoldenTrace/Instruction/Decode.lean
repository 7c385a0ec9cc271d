import GoldenTrace.Instruction.Refusal

/-!
# From descriptors to instructions

The operands of a descriptor are matched against the instructions there are.
The bytes of the instruction take part in three places: they select the bit of
a bitwise operation, the vector of a restart, and whether a rotation is of the
second opcode page. An instruction with an immediate must find exactly its
bytes behind the opcode.
-/

namespace GoldenTrace

abbrev Decoded (α : Type) := Except Refusal α

/-- Insists on a part of a descriptor. -/
def require {α : Type} (part : Part) : Option α → Decoded α
  | some a => .ok a
  | none => .error (.malformed (.missing part))

def Place.ofOperand? : Operand → Option Place
  | ⟨.register8 r, false⟩ => some (register r)
  | ⟨.register16 rr, true⟩ => some (pointer rr)
  | _ => none

def Source.ofOperand? : Operand → Option Source
  | ⟨.imm8 v, false⟩ => some (immediate v)
  | o => (Place.ofOperand? o).map place

/-- The step of the pointer that goes with a load; none for an adjustment that
is no step. -/
def PostLoad.step? : PostLoad → Option (Option Step)
  | none => some Option.none
  | increment => some (some .up)
  | decrement => some (some .down)
  | addSigned _ => Option.none

/-- The load with the given destination and source. Only loads through a pair
step, and only the load of HL from the stack pointer has a displacement. The
stack pointer is no pair to load through: such loads are pushes and pops. -/
def Load.ofOperands? (dst src : Operand) (postLoad : PostLoad) : Option Load :=
  match dst, src, postLoad with
  | ⟨.register8 r, false⟩, ⟨.register16 p, true⟩, _ =>
    if p = .sp then none else postLoad.step?.map (fromPointer r p)
  | ⟨.register16 p, true⟩, ⟨.register8 s, false⟩, _ =>
    if p = .sp then none else postLoad.step?.map (toPointer p s)
  | ⟨.register16 .hl, false⟩, ⟨.register16 .sp, false⟩, .addSigned d => some (hlFromStack d)
  | ⟨.register8 r, false⟩, ⟨.register8 s, false⟩, .none => some (register r s)
  | ⟨.register16 rr, false⟩, ⟨.imm16 v, false⟩, .none => some (pairImmediate rr v)
  | ⟨.register8 r, false⟩, ⟨.imm8 v, false⟩, .none => some (immediate r v)
  | ⟨.register16 p, true⟩, ⟨.imm8 v, false⟩, .none =>
    if p = .sp then none else some (pointerImmediate p v)
  | ⟨.imm16 a, true⟩, ⟨.register16 .sp, false⟩, .none => some (storeStackPointer a)
  | ⟨.register16 rr, false⟩, ⟨.register16 .sp, true⟩, .none =>
    if rr = .sp then none else some (pop rr)
  | ⟨.register16 .sp, true⟩, ⟨.register16 s, false⟩, .none =>
    if s = .sp then none else some (push s)
  | ⟨.imm8 o, true⟩, ⟨.register8 s, false⟩, .none => some (highStore o s)
  | ⟨.register8 r, false⟩, ⟨.imm8 o, true⟩, .none => some (highLoad r o)
  | ⟨.imm16 a, true⟩, ⟨.register8 s, false⟩, .none => some (absoluteStore a s)
  | ⟨.register8 r, false⟩, ⟨.imm16 a, true⟩, .none => some (absoluteLoad r a)
  | ⟨.register8 r, false⟩, ⟨.register8 p, true⟩, .none => some (indexedLoad r p)
  | ⟨.register8 p, true⟩, ⟨.register8 s, false⟩, .none => some (indexedStore p s)
  | ⟨.register16 .sp, false⟩, ⟨.register16 .hl, false⟩, .none => some stackFromHl
  | _, _, _ => none

namespace Instruction

/-- An accumulator operation. The first operand may be left out. -/
def ofAlu (op : AluOp) (lhs rhs : Option Operand) : Decoded Instruction :=
  match lhs.filter (· ≠ Operand.reg8 .a) with
  | some o => .error (.unsupported (.aluInto op o))
  | none => do
    let rhs ← require .secondOperand rhs
    match Source.ofOperand? rhs with
    | some s => return alu op s
    | none => .error (.unsupported (.aluOperand op rhs))

def ofArithmetic8 (op : ArithOp) (lhs rhs : Option Operand) : Decoded Instruction :=
  match op.role with
  | .alu a => ofAlu a lhs rhs
  | .adjust a => .ok (adjust a)
  | .step s => do
    let operand ← require .operand lhs
    match Place.ofOperand? operand with
    | some p => return step8 s p
    | none => .error (.unsupported (.stepOperand op operand))

def ofArithmetic16 (op : ArithOp) (lhs rhs : Option Operand) : Decoded Instruction := do
  let lhs ← require .operand lhs
  match op, lhs, rhs with
  | .inc, ⟨.register16 r, false⟩, none => return step16 .up r
  | .dec, ⟨.register16 r, false⟩, none => return step16 .down r
  | .add, ⟨.register16 .hl, false⟩, some ⟨.register16 r, false⟩ => return addHl r
  | .add, ⟨.register16 .sp, false⟩, some ⟨.signedImm8 d, false⟩ => return addSp d
  | _, _, _ => .error (.unsupported (.wideOperands op lhs rhs))

/-- The bit that a payload selects within an operation's block of the second
opcode page. A block has eight bits of eight operands each. -/
def selectedBit? (op : BitOp) (payload : UInt8) : Option Nat :=
  if op.blockBase ≤ payload.toNat ∧ (payload.toNat - op.blockBase) / 8 < 8 then
    some ((payload.toNat - op.blockBase) / 8)
  else none

def ofBitwise (e : Encoding) (op : BitOp) (bit : Option UInt8) (operand : Option Operand) :
    Decoded Instruction := do
  let declared ← require .bitNumber bit
  let operand ← require .operand operand
  match e.payload? with
  | none => .error (.malformed .noPayload)
  | some payload =>
    match selectedBit? op payload with
    | none => .error (.malformed (.outsideBlock op payload))
    | some selected =>
      if selected ≠ declared.toNat then
        .error (.malformed (.bitNumber selected declared))
      else
        match Place.ofOperand? operand with
        | some p => return bitwise op declared p
        | none => .error (.unsupported (.bitwiseOperand op operand))

def ofLoad (dst src : Option Operand) (postLoad : PostLoad) : Decoded Instruction := do
  let dst ← require .destination dst
  let src ← require .source src
  match Load.ofOperands? dst src postLoad with
  | some l => return load l
  | none => .error (.unsupported (.load dst src postLoad))

/-- The vector that the opcode of a restart encodes. -/
def vectorOf (lead : UInt8) : UInt8 :=
  lead &&& 0x38

def namesVector (vector : UInt8) : Operand.Kind → Bool
  | .imm8 v => v == vector
  | .imm16 v => v == vector.toUInt16
  | _ => false

/-- A restart. A target, if it is given, must name the vector. -/
def ofRestart (lead : UInt8) : Option Operand → Decoded Instruction
  | none => .ok (transfer (.restart (vectorOf lead).toUInt16))
  | some target =>
    if namesVector (vectorOf lead) target.kind then
      .ok (transfer (.restart (vectorOf lead).toUInt16))
    else .error (.malformed (.vector target.kind (vectorOf lead)))

def ofJump (e : Encoding) (kind : JumpKind) (condition : Option Condition)
    (target : Option Operand) : Decoded Instruction :=
  match kind, condition, target with
  | .reti, some _, _ => .error (.unsupported (.conditional kind))
  | .rst, some _, _ => .error (.unsupported (.conditional kind))
  | .jp, c, some ⟨.imm16 a, false⟩ => .ok (transfer (.jump c a))
  | .jp, none, some ⟨.register16 .hl, _⟩ => .ok (transfer .jumpHl)
  | .jp, some _, some ⟨.register16 .hl, _⟩ => .error (.unsupported .conditionalJumpHl)
  | .jr, c, some ⟨.signedImm8 d, false⟩ => .ok (transfer (.relative c d))
  | .call, c, some ⟨.imm16 a, false⟩ => .ok (transfer (.call c a))
  | .ret, c, none => .ok (transfer (.ret c))
  | .reti, none, none => .ok (transfer .reti)
  | .rst, none, t => ofRestart e.lead t
  | _, _, _ => .error (.unsupported (.transfer kind target))

/-- A rotation: of anything on the second opcode page, of the accumulator on
the first. -/
def ofRotate (e : Encoding) (op : RotateOp) (operand : Option Operand) : Decoded Instruction :=
  match e.payload? with
  | some _ => do
    let operand ← require .operand operand
    match Place.ofOperand? operand with
    | some p => return rotate op p
    | none => .error (.unsupported (.rotateOperand op operand))
  | none =>
    match op with
    | .rlc | .rrc | .rl | .rr =>
      match operand.filter (· ≠ Operand.reg8 .a) with
      | some o => .error (.unsupported (.accumulatorOnly op o))
      | none => .ok (rotateA op)
    | _ => .error (.unsupported (.noAccumulatorForm op))

def ofOperation (e : Encoding) : Operation → Decoded Instruction
  | .arithmetic8 op lhs rhs => ofArithmetic8 op lhs rhs
  | .arithmetic16 op lhs rhs => ofArithmetic16 op lhs rhs
  | .bitwise op bit operand => ofBitwise e op bit operand
  | .load dst src postLoad => ofLoad dst src postLoad
  | .jump kind condition target => ofJump e kind condition target
  | .rotate op operand => ofRotate e op operand
  | .control op => .ok (control op)

/-- Whether the bytes behind the opcode are the immediate the instruction
reads. An instruction that reads none takes any bytes. -/
def fits (i : Instruction) (e : Encoding) : Bool :=
  i.immediates.isEmpty || e.tail == i.immediates

def decode (e : Encoding) (op : Operation) : Decoded Instruction := do
  let i ← ofOperation e op
  if i.fits e then return i
  else .error (.malformed (.immediates i.immediates e.bytes))

end Instruction

end GoldenTrace
