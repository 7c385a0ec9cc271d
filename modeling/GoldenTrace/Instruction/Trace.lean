import GoldenTrace.Command.Queue
import GoldenTrace.Instruction.Decode

/-!
# From instructions to traces

A trace begins with the bytes the instruction reads from the stream, one
machine cycle each: the program counter moves behind the byte and the byte is
latched in the instruction register. What follows is the instruction's own
effect on the machine state the trace starts from.

A branch with a condition has two traces, one under a state where the condition
holds and one under a state where it fails. The second stops where the first
goes on to transfer control.
-/

namespace GoldenTrace

structure Trace where
  preset : PresetName
  outcome : Option Outcome
  queue : Queue
  deriving DecidableEq

/-- A step of one, modulo the width. -/
def Step.word (s : Step) (w : UInt16) : UInt16 :=
  match s with
  | up => w + 1
  | down => w - 1

/-- The operation of the arithmetic unit that makes a step of one. -/
def Step.alu : Step → AluOp
  | up => .add
  | down => .sub

def displace (w : UInt16) (d : Int8) : UInt16 :=
  UInt16.ofInt (w.toNat + d.toInt)

/-- The address in the high page with the given offset. -/
def highPage (offset : UInt8) : UInt16 :=
  word 0xFF offset

namespace Queue

def ofWrites (ws : List Write) : Queue :=
  ws.map .write

def ofFlags (u : FlagUpdate) : Queue :=
  ofWrites u.writes

/-- Reads bytes of the stream that begin at `pc`, a cycle each. -/
def fetch (pc : UInt16) : List UInt8 → Queue
  | [] => []
  | b :: bs => .write (.pc (pc + 1)) :: .write (.ir b) :: .halt :: fetch (pc + 1) bs

/-- Reads the byte at an address over the buses and spends the cycle on it. -/
def busRead (p : Preset) (address : UInt16) : Queue :=
  [.write (.addressBus address), .write (.dataBus (p.read8 address)), .halt]

/-- Returns the buses to the address and the byte of the opcode fetch. -/
def restoreBuses (p : Preset) (lead : UInt8) : Queue :=
  [.write (.addressBus (p.regs.pc + 1)), .write (.dataBus lead)]

/-- Pushes a word, the high byte first, with the stack pointer moving down
before each byte. -/
def pushWord (sp v : UInt16) : Queue :=
  [.write (.register16 .sp (sp - 1)), .halt,
    .write (.memory (sp - 1) (highByte v)), .write (.register16 .sp (sp - 2)), .halt,
    .write (.memory (sp - 2) (lowByte v)), .halt]

/-- Moves the stack pointer over two bytes, a cycle each. The second cycle also
carries out the writes `more`. -/
def popWord (sp : UInt16) (more : List Write) : Queue :=
  [.write (.register16 .sp (sp + 1)), .halt, .write (.register16 .sp (sp + 2))] ++
    ofWrites more ++ [.halt]

/-- Moves the program counter and latches the byte found there. -/
def jumpTo (p : Preset) (target : UInt16) : Queue :=
  [.write (.pc target), .write (.ir (p.read8 target))]

end Queue

namespace Place

def read (p : Preset) : Place → UInt8
  | register r => p.regs.get8 r
  | pointer rr => p.read8 (p.regs.get16 rr)

def store (p : Preset) (v : UInt8) : Place → Write
  | register r => .register8 r v
  | pointer rr => .memory (p.regs.get16 rr) v

/-- The end of the cycle that an access to memory takes. -/
def access : Place → Queue
  | register _ => []
  | pointer _ => [.halt]

end Place

namespace Instruction

open Queue

/-- An accumulator operation. A comparison leaves the accumulator alone. A
memory operand takes a cycle to read. -/
def aluEffect (p : Preset) (lead : UInt8) (op : AluOp) (source : Source) : Queue :=
  let operand := match source with
    | .place place => place.read p
    | .immediate v => v
  let result := match op with
    | .cp => []
    | _ => [.write (.register8 .a (Alu.byteValue op p.regs.a operand))]
  let own := result ++ ofFlags (Alu.byteFlags op p.regs.a operand)
  match source with
  | .place (.pointer rr) => busRead p (p.regs.get16 rr) ++ own ++ restoreBuses p lead
  | _ => own

/-- An 8-bit step. The carry is left alone. -/
def step8Effect (p : Preset) (lead : UInt8) (s : Step) (place : Place) : Queue :=
  let old := place.read p
  let result := Alu.byteValue s.alu old 1
  let flags := ofFlags (Alu.byteFlags s.alu old 1).withoutCarry
  match place with
  | .register r => .write (.register8 r result) :: flags
  | .pointer rr =>
    busRead p (p.regs.get16 rr) ++
      [.write (.dataBus result), .write (.memory (p.regs.get16 rr) result)] ++ flags ++
      [.halt] ++ restoreBuses p lead

/-- Decimal adjustment, complement, and the two carry operations. -/
def adjustEffect (p : Preset) : Adjustment → Queue
  | .daa =>
    let (result, flags) := Alu.daa p.regs.a p.regs.f
    .write (.register8 .a result) :: ofFlags flags
  | .cpl => .write (.register8 .a (~~~p.regs.a)) :: ofFlags ⟨none, some true, some true, none⟩
  | .scf => ofFlags ⟨none, some false, some false, some true⟩
  | .ccf => ofFlags ⟨none, some false, some false, some (!p.regs.f.c)⟩

/-- The addition of a pair to HL: the low bytes first, then the high bytes with
the carry. Both passes report their flags, except for zero. -/
def addHlEffect (p : Preset) (rr : Reg16) : Queue :=
  let hl := p.regs.get16 .hl
  let v := p.regs.get16 rr
  let low := Alu.byteFlags .add (lowByte hl) (lowByte v)
  let carry := Alu.lowBit (low.c.getD false)
  [.write (.register8 .l (Alu.byteValue .add (lowByte hl) (lowByte v)))] ++
    ofFlags low.withoutZero ++
    [.halt, .write (.register8 .h (highByte hl + highByte v + carry))] ++
    ofFlags (Alu.flags .add hl.toNat v.toNat Alu.wordModulus).withoutZero

/-- The addition of a displacement to the stack pointer. The flags are those of
the low bytes, with zero cleared. -/
def addSpEffect (p : Preset) (d : Int8) : Queue :=
  let sp := p.regs.sp
  ofFlags ((Alu.byteFlags .add (lowByte sp) d.toUInt8).withZero false) ++
    [.halt, .halt, .write (.register16 .sp (displace sp d))]

/-- A bit test, or a bit cleared or set. -/
def bitwiseEffect (p : Preset) (op : BitOp) (bit : UInt8) (place : Place) : Queue :=
  let old := place.read p
  match op with
  | .bit => place.access ++ ofFlags (Alu.bitTest old bit)
  | .res => place.access ++ [.write (place.store p (old &&& ~~~Alu.bitMask bit))] ++ place.access
  | .set => place.access ++ [.write (place.store p (old ||| Alu.bitMask bit))] ++ place.access

/-- A rotation of the accumulator, which always clears zero. -/
def rotateAEffect (p : Preset) (op : RotateOp) : Queue :=
  let (result, flags) := Alu.rotate op p.regs.a p.regs.f.c
  .write (.register8 .a result) :: ofFlags (flags.withZero false)

/-- A rotation on the second opcode page. -/
def rotateEffect (p : Preset) (op : RotateOp) (place : Place) : Queue :=
  let (result, flags) := Alu.rotate op (place.read p) p.regs.f.c
  place.access ++ [.write (place.store p result)] ++ ofFlags flags ++ place.access

/-- The step of a pointer that accompanies a load through it. -/
def stepPointer (p : Preset) (rr : Reg16) : Option Step → Queue
  | none => []
  | some s => [.write (.register16 rr (s.word (p.regs.get16 rr)))]

/-- The word a pop finds on the stack. The lower four bits of `F` are always
zero. -/
def poppedWord (p : Preset) (dst : Reg16) : UInt16 :=
  match dst with
  | .af => p.read16 p.regs.sp &&& 0xFFF0
  | _ => p.read16 p.regs.sp

/-- The stack pointer and a displacement into HL, byte by byte: the low byte
with the flags of its addition, then the high byte with the sign of the
displacement and the carry. -/
def hlFromStackEffect (p : Preset) (d : Int8) : Queue :=
  let sp := p.regs.sp
  let flags := Alu.byteFlags .add (lowByte sp) d.toUInt8
  let sign : UInt8 := if d < 0 then 0xFF else 0
  let carry := Alu.lowBit (flags.c.getD false)
  .write (.register8 .l (Alu.byteValue .add (lowByte sp) d.toUInt8)) :: ofFlags flags ++
    [.halt, .write (.register8 .h (highByte sp + sign + carry))]

/-- A load. A load from memory takes the destination in the cycle after the
access. -/
def loadEffect (p : Preset) : Load → Queue
  | .register dst src => [.write (.register8 dst (p.regs.get8 src))]
  | .fromPointer dst ptr step =>
    stepPointer p ptr step ++ [.halt, .write (.register8 dst (p.read8 (p.regs.get16 ptr)))]
  | .toPointer ptr src step =>
    .write (.memory (p.regs.get16 ptr) (p.regs.get8 src)) :: stepPointer p ptr step ++ [.halt]
  | .pairImmediate dst v => [.write (.register16 dst v)]
  | .immediate dst v => [.write (.register8 dst v)]
  | .pointerImmediate ptr v => [.write (.memory (p.regs.get16 ptr) v), .halt]
  | .storeStackPointer a =>
    [.write (.memory a (lowByte p.regs.sp)), .halt,
      .write (.memory (a + 1) (highByte p.regs.sp)), .halt]
  | .pop dst => popWord p.regs.sp [] ++ [.write (.register16 dst (poppedWord p dst))]
  | .push src => pushWord p.regs.sp (p.regs.get16 src)
  | .highStore offset src => [.write (.memory (highPage offset) (p.regs.get8 src)), .halt]
  | .highLoad dst offset => [.halt, .write (.register8 dst (p.read8 (highPage offset)))]
  | .absoluteStore a src => [.write (.memory a (p.regs.get8 src)), .halt]
  | .absoluteLoad dst a => [.halt, .write (.register8 dst (p.read8 a))]
  | .indexedLoad dst index =>
    [.halt, .write (.register8 dst (p.read8 (highPage (p.regs.get8 index))))]
  | .indexedStore index src =>
    [.write (.memory (highPage (p.regs.get8 index)) (p.regs.get8 src)), .halt]
  | .stackFromHl => [.write (.register16 .sp (p.regs.get16 .hl)), .halt]
  | .hlFromStack d => hlFromStackEffect p d

/-- The address of the byte after an instruction of `length` bytes. -/
def nextPc (p : Preset) (length : Nat) : UInt16 :=
  p.regs.pc + UInt16.ofNat length

/-- A transfer of control that is taken, for an instruction of `length` bytes. -/
def transferEffect (p : Preset) (length : Nat) : Transfer → Queue
  | .jump _ a => jumpTo p a ++ [.halt]
  | .jumpHl => jumpTo p (p.regs.get16 .hl)
  | .relative _ d => jumpTo p (displace (nextPc p length) d) ++ [.halt]
  | .call _ a => pushWord p.regs.sp (nextPc p length) ++ jumpTo p a
  | .ret _ => popWord p.regs.sp [] ++ jumpTo p (p.read16 p.regs.sp) ++ [.halt]
  | .reti =>
    popWord p.regs.sp [.setIme true] ++ jumpTo p (p.read16 p.regs.sp) ++ [.halt]
  | .restart v => pushWord p.regs.sp (nextPc p length) ++ jumpTo p v

def controlEffect : ControlOp → Queue
  | .nop => []
  | .halt => [.suspend .halt]
  | .stop => [.suspend .stop]
  | .di => [.write (.setIme false)]
  | .ei => [.write (.setIme true)]

/-- What an instruction does once its bytes have been read. -/
def effect (p : Preset) (e : Encoding) : Instruction → Queue
  | alu op source => aluEffect p e.lead op source
  | step8 s place => step8Effect p e.lead s place
  | adjust a => adjustEffect p a
  | step16 s rr => [.write (.register16 rr (s.word (p.regs.get16 rr))), .halt]
  | addHl rr => addHlEffect p rr
  | addSp d => addSpEffect p d
  | bitwise op bit place => bitwiseEffect p op bit place
  | load l => loadEffect p l
  | transfer t => transferEffect p e.length t
  | rotateA op => rotateAEffect p op
  | rotate op place => rotateEffect p op place
  | control op => controlEffect op

/-- The cycle that a conditional return spends on its condition. -/
def delay : Instruction → Queue
  | transfer (.ret (some _)) => [.halt]
  | _ => []

/-- The part of a trace that does not depend on a condition. -/
def opening (p : Preset) (e : Encoding) (i : Instruction) : Queue :=
  fetch p.regs.pc (e.bytes.take i.streamLength) ++ i.delay

/-- The trace of an instruction that takes its effect. -/
def execution (p : Preset) (e : Encoding) (i : Instruction) : Queue :=
  i.opening p e ++ i.effect p e

/-- The state to follow a branch from, with the condition as given. -/
def branchPreset (c : Condition) (holds : Bool) : PresetName :=
  if c.holds PresetName.highstack.preset.regs.f == holds then .highstack else .nznc

/-- Every trace of an instruction: one, or for a branch with a condition the
taken and the other side. -/
def traces (e : Encoding) (i : Instruction) : List Trace :=
  match i.condition? with
  | none => [⟨i.preset, none, i.execution i.preset.preset e⟩]
  | some c =>
    [⟨branchPreset c true, some .taken, i.execution (branchPreset c true).preset e⟩,
      ⟨branchPreset c false, some .notTaken, i.opening (branchPreset c false).preset e⟩]

end Instruction

end GoldenTrace
