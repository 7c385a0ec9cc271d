import GoldenTrace.Proofs.Arithmetic8
import GoldenTrace.Proofs.FlagState
import GoldenTrace.Proofs.Load
import GoldenTrace.Proofs.Subroutine

/-!
# Arithmetic on words

The addition of a pair to HL makes two passes over its bytes, but takes its last flags from the
addition of the whole words. A displacement is added to the stack pointer in one step where the
stack pointer keeps the sum, and in two passes where HL takes it. The traces of each end with
the sum of the words, and the flags tell of it whichever way it was formed.
-/

namespace GoldenTrace

/-! ## Effects -/

namespace Machine

theorem get16_set16_hl (m : Machine) (v : UInt16) : (m.set16 .hl v).get16 .hl = v := by
  show word (Function.update (Function.update m.reg .h (highByte v)) .l (lowByte v) .h)
    (Function.update (Function.update m.reg .h (highByte v)) .l (lowByte v) .l) = v
  rw [Function.update_self, Function.update_of_ne (by decide), Function.update_self,
    word_highByte_lowByte]

/-- The halves of HL may be written one after the other, with register `F` behind each. -/
theorem set8_passes (m : Machine) (x : UInt16) (v w : UInt8) :
    (((m.set8 .l (lowByte x)).set8 .f v).set8 .h (highByte x)).set8 .f w =
      (m.set8 .f w).set16 .hl x := by
  rw [set8_comm _ (r := .f) (s := .h) (by decide), set8_set8,
    set8_comm _ (r := .h) (s := .f) (by decide), set8_comm _ (r := .l) (s := .f) (by decide),
    set8_comm _ (r := .l) (s := .h) (by decide)]
  rfl

end Machine

theorem FlagUpdate.zero_not_mem_withoutZero (u : FlagUpdate) (v : UInt8) :
    (.z, v) ∉ u.withoutZero.flagWrites := by
  intro h
  obtain ⟨w, hw, hflag⟩ := List.mem_filterMap.mp h
  obtain ⟨f, b, hget, rfl⟩ := mem_writes.mp hw
  cases hflag
  cases hget

namespace Instruction

open Queue

variable {m : Machine} {p : Preset}

/-- What is written when HL gets the sum of two words: the bytes of both passes. -/
theorem stores_addHlEffect (p : Preset) (rr : Reg16) :
    stores (addHlEffect p rr) =
      [.register8 .l (Alu.lowSum (p.regs.get16 .hl) (p.regs.get16 rr)),
        .register8 .h (Alu.highSum (p.regs.get16 .hl) (p.regs.get16 rr))] := by
  simp [addHlEffect, Write.isStore, Alu.lowSum, Alu.highSum, Alu.lowCarry]

/-- Neither pass reports zero. -/
theorem zero_not_mem_addHlEffect (p : Preset) (rr : Reg16) (v : UInt8) :
    (.z, v) ∉ flagWrites (addHlEffect p rr) := by
  simp [addHlEffect, Write.flag?, FlagUpdate.zero_not_mem_withoutZero]

theorem flagWrites_hlFromStackEffect (p : Preset) (d : Int8) :
    flagWrites (hlFromStackEffect p d) =
      (Alu.byteFlags .add (lowByte p.regs.sp) d.toUInt8).flagWrites := by
  simp [hlFromStackEffect, Write.flag?]

theorem flagWrites_addSpEffect (p : Preset) (d : Int8) :
    flagWrites (addSpEffect p d) =
      ((Alu.byteFlags .add (lowByte p.regs.sp) d.toUInt8).withZero false).flagWrites := by
  simp [addSpEffect, Write.flag?]

theorem stores_addSpEffect (p : Preset) (d : Int8) :
    stores (addSpEffect p d) = [.register16 .sp (displace p.regs.sp d)] := by
  simp [addSpEffect, Write.isStore]

/-- HL gets the sum, and register `F` the flags of the sum of the words. -/
theorem exists_run_addHlEffect (h : m.Holds p) (rr : Reg16) :
    ∃ v, m.run (addHlEffect p rr) = (m.set8 .f v).set16 .hl (m.get16 .hl + m.get16 rr) ∧
      Flags.ofByte v =
        { m.flags with
          n := false
          h := 16 ≤ (m.get16 .hl).toNat % 16 + (m.get16 rr).toNat % 16
          c := 65536 ≤ (m.get16 .hl).toNat + (m.get16 rr).toNat } := by
  generalize hx : m.get16 .hl = x
  generalize hy : m.get16 rr = y
  obtain ⟨v, hv, hlow⟩ := (m.set8 .l (Alu.lowSum x y)).exists_run_ofFlags
    (Alu.byteFlags .add (lowByte x) (lowByte y)).withoutZero
  obtain ⟨w, hw, hboth⟩ := (((m.set8 .l (Alu.lowSum x y)).set8 .f v).set8 .h
    (Alu.highSum x y)).exists_run_ofFlags
      (Alu.flags .add x.toNat y.toNat Alu.wordModulus).withoutZero
  refine ⟨w, ?_, ?_⟩
  · rw [addHlEffect, h.get16, h.get16, hx, hy, ← Machine.set8_passes m _ v, Alu.highByte_add,
      Alu.lowByte_add, ← hw, ← hv]
    simp only [Machine.run_append]
    rfl
  · rw [hboth, Machine.flags_set8 _ (by decide), Machine.flags_set8_f, hlow,
      Machine.flags_set8 _ (by decide)]
    rfl

theorem run_addSpEffect (h : m.Holds p) (d : Int8) :
    m.run (addSpEffect p d) =
      { m.setFlags false false (16 ≤ m.sp.toNat % 16 + d.toUInt8.toNat % 16)
          (256 ≤ m.sp.toNat % 256 + d.toUInt8.toNat) with sp := displace m.sp d } := by
  rw [addSpEffect, h.sp, byteFlags_displace, Machine.run_append]
  show (m.run (ofFlags (.all false false _ _))).run _ = _
  rw [Machine.run_ofFlags]
  rfl

end Instruction

/-! ## Sums of the stack pointer -/

/-- What is reported of a displacement apart from zero: the flags of the unsigned addition of
its byte to the low byte. -/
def displacementReport (w : UInt16) (d : Int8) : List (Flag × UInt8) :=
  [(.n, 0), (.h, Write.bit (16 ≤ w.toNat % 16 + d.toUInt8.toNat % 16)),
    (.c, Write.bit (256 ≤ w.toNat % 256 + d.toUInt8.toNat))]

theorem flagWrites_displace (w : UInt16) (d : Int8) :
    (Alu.byteFlags .add (lowByte w) d.toUInt8).flagWrites =
      (.z, Write.bit (displacedLow w d == 0)) :: displacementReport w d := by
  have hzero : (w.toNat + d.toUInt8.toNat) % 256 = (displacedLow w d).toNat := by
    rw [displacedLow, Alu.toNat_byteValue, toNat_lowByte]
    show _ = (w.toNat % 256 + d.toUInt8.toNat + 0) % 256
    omega
  rw [byteFlags_displace, hzero, Alu.toNat_beq_zero]
  rfl

theorem flagWrites_displace_withZero (w : UInt16) (d : Int8) :
    ((Alu.byteFlags .add (lowByte w) d.toUInt8).withZero false).flagWrites =
      (.z, 0) :: displacementReport w d := by
  rw [byteFlags_displace]
  rfl

open Instruction in
/-- A displacement is added to the stack pointer of `p` in two ways. Byte by byte and at once
the sum is the same, and so is what is reported of it but for zero. -/
structure Preset.StackSums (p : Preset) (d : Int8) : Prop where
  split : (hlFromStackEffect p d).stores =
    [.register8 .l (displacedLow p.regs.sp d), .register8 .h (displacedHigh p.regs.sp d)]
  whole : (addSpEffect p d).stores =
    [.register16 .sp (word (displacedHigh p.regs.sp d) (displacedLow p.regs.sp d))]
  exact : ((word (displacedHigh p.regs.sp d) (displacedLow p.regs.sp d)).toNat : Int) =
    (p.regs.sp.toNat + d.toInt) % 65536
  splitFlags : (hlFromStackEffect p d).flagWrites =
    (.z, Write.bit (displacedLow p.regs.sp d == 0)) :: displacementReport p.regs.sp d
  wholeFlags : (addSpEffect p d).flagWrites = (.z, 0) :: displacementReport p.regs.sp d

theorem Preset.stackSums (p : Preset) (d : Int8) : p.StackSums d := by
  refine ⟨?split, ?whole, ?exact, ?splitFlags, ?wholeFlags⟩
  case split =>
    simp [Instruction.hlFromStackEffect, Write.isStore, displacedLow, displacedHigh]
  case whole => rw [word_displaced, Instruction.stores_addSpEffect]
  case exact => rw [word_displaced, toNat_displace]
  case splitFlags => rw [← flagWrites_displace, Instruction.flagWrites_hlFromStackEffect]
  case wholeFlags => rw [← flagWrites_displace_withZero, Instruction.flagWrites_addSpEffect]

/-! ## Traces -/

/-- The trace is that of an instruction without a condition: what it stores and reports is what
the effect does, and it ends where the effect leads a machine with the state of its preset. -/
structure Trace.Executes (t : Trace) (i : Instruction) (e : Encoding) : Prop where
  preset : t.preset = i.preset
  stores : t.queue.stores = (i.effect t.preset.preset e).stores
  flagWrites : t.queue.flagWrites = (i.effect t.preset.preset e).flagWrites
  final : ∀ ir, ∃ m : Machine, m.Holds t.preset.preset ∧
    t.final ir = m.run (i.effect t.preset.preset e)

theorem Instruction.exists_executes {i : Instruction} {e : Encoding}
    (hle : i.streamLength ≤ e.bytes.length) (hcondition : i.condition? = none)
    (hdelay : i.delay = []) : ∃ t : Trace, i.traces e = [t] ∧ t.Executes i e := by
  have htraces := traces_of_no_condition (e := e) hcondition hdelay
  have houtcome : none ≠ some Outcome.notTaken := by decide
  obtain ⟨latch, hfinal⟩ := exists_final_eq hle (htraces ▸ List.mem_singleton_self _) houtcome
  refine ⟨_, htraces, rfl, ?stores, ?flagWrites, ?final⟩
  case stores => rw [Queue.stores_append, Queue.stores_reading, List.nil_append]
  case flagWrites => rw [Queue.flagWrites_append, Queue.flagWrites_reading, List.nil_append]
  case final =>
    intro ir
    exact ⟨_, Preset.holds_machine _ ir _ latch, hfinal ir⟩

/-- The trace leaves the sum of `x` and `y` in HL. -/
structure Trace.LeavesSum (t : Trace) (x y : UInt16) : Prop where
  /-- The bytes of the two passes are stored, and nothing else is. -/
  passes : t.queue.stores =
    [.register8 .l (Alu.lowSum x y), .register8 .h (Alu.highSum x y)]
  sum : ∀ ir, (t.final ir).get16 .hl = x + y
  flags : ∀ ir, (t.final ir).flags =
    { (t.preset.preset.machine ir).flags with
      n := false
      h := 16 ≤ x.toNat % 16 + y.toNat % 16
      c := 65536 ≤ x.toNat + y.toNat }
  /-- Zero is as it was because it is never written. -/
  zero : ∀ v, (.z, v) ∉ t.queue.flagWrites

/-- One trace adds a displacement to the stack pointer, and the other leaves the same sum in
HL. What they report differs in zero only. -/
structure Trace.SameStackSum (whole split : Trace) (d : Int8) : Prop where
  sum : ∀ ir ir', (split.final ir').get16 .hl = (whole.final ir).sp
  exact : ∀ ir, ((whole.final ir).sp.toNat : Int) =
    (whole.preset.preset.regs.sp.toNat + d.toInt) % 65536
  reports : ∃ v, split.queue.flagWrites =
      (.z, v) :: displacementReport whole.preset.preset.regs.sp d ∧
    whole.queue.flagWrites = (.z, 0) :: displacementReport whole.preset.preset.regs.sp d
  flags : ∀ ir ir' f, f ≠ .z → (split.final ir').flags.get f = (whole.final ir).flags.get f

namespace Trace.Executes

variable {t t' : Trace} {e e' : Encoding} {rr : Reg16} {d : Int8}

theorem leavesSum (h : t.Executes (.addHl rr) e) :
    t.LeavesSum (t.preset.preset.regs.get16 .hl) (t.preset.preset.regs.get16 rr) := by
  have hrun : ∀ ir, ∃ m : Machine, m.Holds t.preset.preset ∧
      t.final ir = m.run (Instruction.addHlEffect t.preset.preset rr) := h.final
  refine ⟨?passes, ?sum, ?flags, ?zero⟩
  case passes => exact h.stores.trans (Instruction.stores_addHlEffect _ rr)
  case sum =>
    intro ir
    obtain ⟨m, hm, hfinal⟩ := hrun ir
    obtain ⟨v, hv, -⟩ := Instruction.exists_run_addHlEffect hm rr
    rw [hfinal, hv, Machine.get16_set16_hl, hm.get16, hm.get16]
  case flags =>
    intro ir
    obtain ⟨m, hm, hfinal⟩ := hrun ir
    obtain ⟨v, hv, hflags⟩ := Instruction.exists_run_addHlEffect hm rr
    rw [hfinal, hv, Machine.flags_set16_hl, Machine.flags_set8_f, hflags, hm.flags_machine,
      hm.get16, hm.get16]
  case zero =>
    intro v
    rw [h.flagWrites]
    exact Instruction.zero_not_mem_addHlEffect _ rr v

theorem sameStackSum (h : t.Executes (.addSp d) e)
    (h' : t'.Executes (.load (.hlFromStack d)) e') : t.SameStackSum t' d := by
  have hpreset : t'.preset = t.preset := h'.preset.trans h.preset.symm
  have hwhole : ∀ ir, ∃ m : Machine, m.Holds t.preset.preset ∧
      t.final ir = m.run (Instruction.addSpEffect t.preset.preset d) := h.final
  have hsplit : ∀ ir, ∃ m : Machine, m.Holds t.preset.preset ∧
      t'.final ir = m.run (Instruction.hlFromStackEffect t.preset.preset d) := hpreset ▸ h'.final
  have hsp : ∀ ir, (t.final ir).sp = displace t.preset.preset.regs.sp d := by
    intro ir
    obtain ⟨m, hm, hfinal⟩ := hwhole ir
    rw [hfinal, Instruction.run_addSpEffect hm, hm.sp]
  refine ⟨?sum, ?exact, ?reports, ?flags⟩
  case sum =>
    intro ir ir'
    obtain ⟨m, hm, hfinal⟩ := hsplit ir'
    rw [hsp, hfinal, Instruction.run_hlFromStackEffect hm, Machine.get16_set16_hl, hm.sp]
  case exact =>
    intro ir
    rw [hsp, toNat_displace]
  case reports =>
    have hsums := t.preset.preset.stackSums d
    have hflags := h'.flagWrites
    rw [hpreset] at hflags
    exact ⟨_, hflags.trans hsums.splitFlags, h.flagWrites.trans hsums.wholeFlags⟩
  case flags =>
    intro ir ir' f hf
    obtain ⟨m, hm, hfinal⟩ := hwhole ir
    obtain ⟨m', hm', hfinal'⟩ := hsplit ir'
    rw [hfinal, hfinal', Instruction.run_addSpEffect hm, Instruction.run_hlFromStackEffect hm',
      Machine.flags_set16_hl, Machine.flags_setFlags, ← hm.sp, ← hm'.sp]
    show _ = (Machine.setFlags _ _ _ _ _).flags.get f
    rw [Machine.flags_setFlags]
    cases f with
    | z => exact absurd rfl hf
    | _ => rfl

end Trace.Executes

namespace Descriptor

/-- A descriptor that denotes one instruction, and is accepted, has the one trace of it. -/
theorem exists_executes {d : Descriptor} {ts : List Trace} {i : Instruction}
    (h : d.assemble = .ok ts) (hdenotes : ∀ e, Instruction.Denotes e d.operation i)
    (hcondition : i.condition? = none) (hdelay : i.delay = []) :
    ∃ e t, ts = [t] ∧ Trace.Executes t i e := by
  obtain ⟨e, i', -, hdenotes', -, -, hle, rfl⟩ := exists_stream_of_assemble h
  obtain rfl : i' = i :=
    Except.ok.inj (hdenotes'.ofOperation.symm.trans (hdenotes e).ofOperation)
  obtain ⟨t, ht, hexecutes⟩ := Instruction.exists_executes hle hcondition hdelay
  exact ⟨e, t, ht, hexecutes⟩

/-- **Sums of pairs.** Two passes over the bytes of two words agree with the addition of the
words, and it is these passes that an addition to HL stores. The one trace of such an addition
that is accepted leaves the sum of the pairs in HL, with carry set if the sum leaves the word. -/
theorem leavesSum_of_assemble :
    (∀ x y, Alu.TwoPass x y) ∧
    (∀ (p : Preset) (rr : Reg16), (Instruction.addHlEffect p rr).stores =
      [.register8 .l (Alu.lowSum (p.regs.get16 .hl) (p.regs.get16 rr)),
        .register8 .h (Alu.highSum (p.regs.get16 .hl) (p.regs.get16 rr))]) ∧
    ∀ (d : Descriptor) (ts : List Trace) (rhs : Option Operand), d.assemble = .ok ts →
      d.operation = .arithmetic16 .add (some (.reg16 .hl)) rhs →
      ∃ rr t, rhs = some (.reg16 rr) ∧ ts = [t] ∧
        t.LeavesSum (t.preset.preset.regs.get16 .hl) (t.preset.preset.regs.get16 rr) := by
  refine ⟨Alu.twoPass, Instruction.stores_addHlEffect, ?_⟩
  intro d ts rhs h hop
  obtain ⟨e, i, -, hdenotes, -, -, -, -⟩ := exists_stream_of_assemble h
  rw [hop] at hdenotes
  cases hdenotes with
  | addHl rr =>
      have hadds : ∀ e, Instruction.Denotes e d.operation (.addHl rr) := by
        intro e
        rw [hop]
        exact .addHl rr
      obtain ⟨e, t, hts, hexecutes⟩ := exists_executes h hadds rfl rfl
      exact ⟨rr, t, rfl, hts, hexecutes.leavesSum⟩

/-- The low pass carries, and the sum does not. -/
theorem leavesSum_of_assemble_pairSum :
    ∃ t, pairSumSample.assemble = .ok [t] ∧ t.LeavesSum 0x0102 0x00FF ∧
      t.queue.stores = [.register8 .l 0x01, .register8 .h 0x02] ∧
      Alu.lowCarry 0x0102 0x00FF = true ∧ (t.final 0).flags = ⟨true, false, true, false⟩ := by
  obtain ⟨rr, t, hrr, hts, hsum⟩ :=
    leavesSum_of_assemble.2.2 pairSumSample _ _ assemble_pairSumSample rfl
  cases hrr
  cases hts
  exact ⟨_, assemble_pairSumSample, hsum, hsum.passes, by decide, hsum.flags 0⟩

/-- **Sums of the stack pointer.** Whatever the stack pointer is, a displacement is added to it
byte by byte as it is at once, and the flags apart from zero are the same. So where `ADD SP` and
`LD HL,SP` of one displacement are accepted, their traces leave the same word, and what they
report differs in zero only. -/
theorem sameStackSum_of_assemble :
    (∀ (p : Preset) (d : Int8), p.StackSums d) ∧
    ∀ (whole split : Descriptor) (ts ts' : List Trace) (d : Int8),
      whole.assemble = .ok ts → split.assemble = .ok ts' →
      whole.operation = .arithmetic16 .add (some (.reg16 .sp)) (some ⟨.signedImm8 d, false⟩) →
      split.operation = .load (some (.reg16 .hl)) (some (.reg16 .sp)) (.addSigned d) →
      ∃ t t', ts = [t] ∧ ts' = [t'] ∧ t.SameStackSum t' d := by
  refine ⟨Preset.stackSums, ?_⟩
  intro whole split ts ts' d h h' hop hop'
  have hadds : ∀ e, Instruction.Denotes e whole.operation (.addSp d) := by
    intro e
    rw [hop]
    exact .addSp d
  have hloads : ∀ e, Instruction.Denotes e split.operation (.load (.hlFromStack d)) := by
    intro e
    rw [hop']
    exact .load (.hlFromStack d) trivial
  obtain ⟨e, t, hts, hwhole⟩ := exists_executes h hadds rfl rfl
  obtain ⟨e', t', hts', hsplit⟩ := exists_executes h' hloads rfl rfl
  exact ⟨t, t', hts, hts', hwhole.sameStackSum hsplit⟩

/-- `ADD SP,-16`. -/
def stackSumSample : Descriptor :=
  ⟨0xE8F0, 2, 4, .arithmetic16 .add (some (.reg16 .sp)) (some ⟨.signedImm8 (-16), false⟩)⟩

theorem assemble_stackSumSample :
    stackSumSample.assemble = .ok ((Instruction.addSp (-16)).traces ⟨0xE8, [0xF0]⟩) :=
  assemble_of_denotes rfl (.addSp (-16)) rfl rfl

/-- From `0xBBFF` both lead to `0xBBEF`, with a carry of the low byte. -/
theorem sameStackSum_of_assemble_sample :
    ∃ t t', stackSumSample.assemble = .ok [t] ∧ stackLoadSample.assemble = .ok [t'] ∧
      t.SameStackSum t' (-16) ∧ (t'.final 0).get16 .hl = 0xBBEF ∧
      t.queue.flagWrites = [(.z, 0), (.n, 0), (.h, 0), (.c, 1)] := by
  obtain ⟨t, t', hts, hts', hsame⟩ := sameStackSum_of_assemble.2 stackSumSample stackLoadSample
    _ _ (-16) assemble_stackSumSample assemble_stackLoadSample rfl rfl
  cases hts
  cases hts'
  obtain ⟨v, -, hreport⟩ := hsame.reports
  exact ⟨_, _, assemble_stackSumSample, assemble_stackLoadSample, hsame, by decide, hreport⟩

end Descriptor

end GoldenTrace
