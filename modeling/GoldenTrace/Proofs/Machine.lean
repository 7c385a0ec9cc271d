import GoldenTrace.Proofs.Stream
import Mathlib.Data.List.Induction
import Mathlib.Logic.Function.Basic

/-!
# Machines

A trace says what a machine does; here is the machine. The writes of a queue are
applied to it in order. A pair shares its storage with the registers it is made
of and a flag its bit with register `F`, so the order of writes matters. The buses
hold nothing that lasts.
-/

namespace GoldenTrace

/-! ## Words and their bytes -/

@[simp] theorem toNat_lowByte (w : UInt16) : (lowByte w).toNat = w.toNat % 256 :=
  UInt8.toNat_ofNat'

@[simp] theorem toNat_highByte (w : UInt16) : (highByte w).toNat = w.toNat / 256 := by
  have hw := w.toNat_lt
  rw [highByte, UInt8.toNat_ofNat', Nat.mod_eq_of_lt (by omega)]

@[simp] theorem toNat_word (high low : UInt8) :
    (word high low).toNat = high.toNat * 256 + low.toNat := by
  have hhigh := high.toNat_lt
  have hlow := low.toNat_lt
  rw [word, UInt16.toNat_ofNat', Nat.mod_eq_of_lt (by omega)]

/-- A word is that of its bytes. -/
@[simp] theorem word_highByte_lowByte (w : UInt16) : word (highByte w) (lowByte w) = w := by
  apply UInt16.toNat_inj.mp
  rw [toNat_word, toNat_highByte, toNat_lowByte]
  omega

theorem highByte_word (high low : UInt8) : highByte (word high low) = high := by
  have hlow := low.toNat_lt
  apply UInt8.toNat_inj.mp
  rw [toNat_highByte, toNat_word]
  omega

theorem lowByte_word (high low : UInt8) : lowByte (word high low) = low := by
  have hlow := low.toNat_lt
  apply UInt8.toNat_inj.mp
  rw [toNat_lowByte, toNat_word]
  omega

/-! ## Addresses below a stack pointer -/

theorem sub_two_add_one (s : UInt16) : s - 2 + 1 = s - 1 := by
  rw [← UInt16.toNat_inj]
  simp [UInt16.toNat_add, UInt16.toNat_sub]
  omega

theorem sub_one_ne_sub_two (s : UInt16) : s - 1 ≠ s - 2 := by
  intro h
  have hzero := congrArg UInt16.toNat h
  simp [UInt16.toNat_sub] at hzero
  omega

/-! ## States -/

/-- What writes change: registers, stack pointer, program counter, instruction
register, interrupt enable and memory. -/
structure Machine where
  reg : Reg8 → UInt8
  sp : UInt16
  pc : UInt16
  ir : UInt8
  ime : Bool
  mem : UInt16 → UInt8

namespace Machine

def set8 (m : Machine) (r : Reg8) (v : UInt8) : Machine :=
  { m with reg := Function.update m.reg r v }

def get16 (m : Machine) (rr : Reg16) : UInt16 :=
  match rr.halves? with
  | some (high, low) => word (m.reg high) (m.reg low)
  | none => m.sp

def set16 (m : Machine) (rr : Reg16) (v : UInt16) : Machine :=
  match rr.halves? with
  | some (high, low) => (m.set8 high (highByte v)).set8 low (lowByte v)
  | none => { m with sp := v }

def read16 (m : Machine) (address : UInt16) : UInt16 :=
  wordAt m.mem address

def store (m : Machine) (address : UInt16) (v : UInt8) : Machine :=
  { m with mem := Function.update m.mem address v }

def setFlag (m : Machine) (f : Flag) (b : Bool) : Machine :=
  m.set8 .f (if b then m.reg .f ||| f.mask else m.reg .f &&& ~~~f.mask)

/-- Every flag is set, from the highest down. -/
def setFlags (m : Machine) (z n h c : Bool) : Machine :=
  (((m.setFlag .z z).setFlag .n n).setFlag .h h).setFlag .c c

/-- A word on the stack: its high byte above its low byte, where the stack pointer
then stands. -/
def push (m : Machine) (v : UInt16) : Machine :=
  { (m.store (m.sp - 1) (highByte v)).store (m.sp - 2) (lowByte v) with sp := m.sp - 2 }

/-- The effect of one write. -/
def apply (m : Machine) : Write → Machine
  | .register8 r v => m.set8 r v
  | .register16 rr v => m.set16 rr v
  | .memory a v => m.store a v
  | .flag f v => m.setFlag f (v != 0)
  | .ime v => { m with ime := v != 0 }
  | .addressBus _ | .dataBus _ => m
  | .pc v => { m with pc := v }
  | .ir v => { m with ir := v }

/-- The effect of all writes of a queue in order. -/
def run (m : Machine) (q : Queue) : Machine :=
  q.writes.foldl apply m

theorem set8_comm (m : Machine) {r s : Reg8} (h : r ≠ s) (v w : UInt8) :
    (m.set8 r v).set8 s w = (m.set8 s w).set8 r v := by
  simp only [set8, Function.update_comm h]

theorem set8_set8 (m : Machine) (r : Reg8) (v w : UInt8) : (m.set8 r v).set8 r w = m.set8 r w := by
  simp only [set8, Function.update_idem]

theorem setFlag_set8 (m : Machine) {r : Reg8} (h : r ≠ .f) (v : UInt8) (f : Flag) (b : Bool) :
    (m.set8 r v).setFlag f b = (m.setFlag f b).set8 r v := by
  have hf : (m.set8 r v).reg .f = m.reg .f := by
    show Function.update m.reg r v .f = _
    rw [Function.update_of_ne h.symm]
  rw [setFlag, hf, set8_comm m h]
  rfl

theorem setFlags_set8 (m : Machine) {r : Reg8} (h : r ≠ .f) (v : UInt8) (z n g c : Bool) :
    (m.set8 r v).setFlags z n g c = (m.setFlags z n g c).set8 r v := by
  simp only [setFlags, setFlag_set8 _ h]

/-! ## The stack -/

theorem mem_push_high (m : Machine) (v : UInt16) : (m.push v).mem (m.sp - 1) = highByte v := by
  show Function.update (Function.update m.mem _ _) _ _ _ = _
  rw [Function.update_of_ne (sub_one_ne_sub_two m.sp), Function.update_self]

theorem mem_push_low (m : Machine) (v : UInt16) : (m.push v).mem (m.sp - 2) = lowByte v :=
  Function.update_self ..

/-- What is pushed is found where the stack pointer stands. -/
theorem read16_push (m : Machine) (v : UInt16) : (m.push v).read16 (m.push v).sp = v := by
  show word ((m.push v).mem (m.sp - 2 + 1)) ((m.push v).mem (m.sp - 2)) = v
  rw [sub_two_add_one, mem_push_high, mem_push_low, word_highByte_lowByte]

/-! ## Runs -/

@[simp] theorem run_nil (m : Machine) : m.run [] = m := rfl

@[simp] theorem run_write (m : Machine) (w : Write) (q : Queue) :
    m.run (.write w :: q) = (m.apply w).run q := rfl

@[simp] theorem run_halt (m : Machine) (q : Queue) : m.run (.halt :: q) = m.run q := rfl

@[simp] theorem run_append (m : Machine) (q q' : Queue) :
    m.run (q ++ q') = (m.run q).run q' := by
  rw [run, Queue.writes_append, List.foldl_append]
  rfl

/-- The flag writes of an update that has a state for every flag. -/
theorem run_ofFlags (m : Machine) (z n h c : Bool) :
    m.run (Queue.ofFlags (.all z n h c)) = m.setFlags z n h c := by
  have hbit : ∀ b, (Write.bit b != 0) = b := by
    intro b
    cases b <;> rfl
  show (((m.setFlag .z (Write.bit z != 0)).setFlag .n (Write.bit n != 0)).setFlag .h
    (Write.bit h != 0)).setFlag .c (Write.bit c != 0) = _
  simp only [hbit]
  rfl

/-- The reading of the stream leaves the last byte latched and the program counter
behind it. -/
theorem run_reading (m : Machine) {bytes : List UInt8} {b : UInt8}
    (h : bytes.getLast? = some b) :
    m.run (Queue.reading bytes) = { m with pc := UInt16.ofNat bytes.length, ir := b } := by
  obtain ⟨front, rfl⟩ := List.getLast?_eq_some_iff.mp h
  clear h
  rw [List.length_append]
  induction front using List.reverseRecOn generalizing b with
  | nil => rfl
  | append_singleton front c ih =>
      rw [Queue.reading_concat, run_append, ih]
      rfl

theorem run_pushWord (m : Machine) (v : UInt16) : m.run (Queue.pushWord m.sp v) = m.push v :=
  rfl

theorem run_popWord (m : Machine) : m.run (Queue.popWord m.sp []) = { m with sp := m.sp + 2 } :=
  rfl

end Machine

/-! ## The machine of a preset -/

/-- The machine in the state of a preset. A preset leaves the instruction register
open. -/
def Preset.machine (p : Preset) (ir : UInt8) : Machine where
  reg := p.regs.get8
  sp := p.regs.sp
  pc := p.regs.pc
  ir := ir
  ime := p.ime
  mem := p.read8

/-- The machine has the registers and the memory of the preset. -/
structure Machine.Holds (m : Machine) (p : Preset) : Prop where
  reg : p.regs.get8 = m.reg
  sp : p.regs.sp = m.sp
  mem : p.read8 = m.mem

namespace Machine.Holds

variable {m : Machine} {p : Preset}

theorem get16 (h : m.Holds p) (rr : Reg16) : p.regs.get16 rr = m.get16 rr := by
  cases rr <;> simp only [Registers.get16, Machine.get16, Reg16.halves?, h.reg, h.sp]

theorem read16 (h : m.Holds p) (address : UInt16) : p.read16 address = m.read16 address := by
  rw [Preset.read16, Machine.read16, h.mem]

end Machine.Holds

/-- The machine of a preset has its registers and its memory, wherever it stands in
the stream. -/
theorem Preset.holds_machine (p : Preset) (ir : UInt8) (pc : UInt16) (latch : UInt8) :
    ({ p.machine ir with pc := pc, ir := latch } : Machine).Holds p :=
  ⟨rfl, rfl, rfl⟩

/-- An instruction takes its effect on the machine that has read the stream. -/
theorem Instruction.run_execution {e : Encoding} {i : Instruction}
    (h : i.streamLength ≤ e.bytes.length) (p : PresetName) :
    ∃ latch, (e.bytes.take i.streamLength).getLast? = some latch ∧ ∀ ir,
      (p.preset.machine ir).run (i.execution p.preset e) =
        ({ p.preset.machine ir with pc := UInt16.ofNat i.streamLength, ir := latch } :
          Machine).run (i.effect p.preset e) := by
  have hlength : (e.bytes.take i.streamLength).length = i.streamLength := by
    rw [List.length_take, Nat.min_eq_left h]
  have hdelay : ∀ m : Machine, m.run i.delay = m := by
    intro m
    rw [Machine.run, writes_delay]
    rfl
  have hlast := List.getLast?_eq_some_getLast (take_bytes_ne_nil e i)
  refine ⟨_, hlast, ?_⟩
  intro ir
  rw [execution, opening_eq, Machine.run_append, Machine.run_append,
    Machine.run_reading _ hlast, hdelay, hlength]

end GoldenTrace
