import GoldenTrace.Proofs.Branch
import GoldenTrace.Proofs.Machine

/-!
# Subroutines

A call leaves on top of the stack the address that a return goes on at. It takes
this address from the declared length of its instruction, while the stream leaves
the program counter behind the bytes that were read. Both agree for a `CALL`. A
restart reads nothing but its opcode, so for a restart they agree if it is declared
to be one byte long.
-/

namespace GoldenTrace

/-! ## The program counter of a queue -/

def Write.pc? : Write → Option UInt16
  | pc v => some v
  | _ => none

namespace Queue

/-- Where the program counter stands after the last time it is written. -/
def lastPc? (q : Queue) : Option UInt16 :=
  (q.writes.filterMap Write.pc?).getLast?

/-- The stream leaves the program counter behind its last byte. -/
theorem lastPc?_reading {bytes : List UInt8} (h : bytes ≠ []) :
    lastPc? (reading bytes) = some (UInt16.ofNat bytes.length) := by
  obtain ⟨front, b, rfl⟩ := (List.eq_nil_or_concat' bytes).resolve_left h
  have hlast : (writes [.write (.pc (UInt16.ofNat (front.length + 1))), .write (.ir b),
      .halt]).filterMap Write.pc? = [UInt16.ofNat (front.length + 1)] := rfl
  rw [reading_concat, lastPc?, writes_append, List.filterMap_append, hlast,
    List.getLast?_append, List.length_append]
  rfl

end Queue

/-! ## Calls and returns of machines -/

namespace Machine

/-- A call of `target` that is to return to `next`. The byte at the target is
latched as memory was before the call. -/
def call (m : Machine) (next target : UInt16) : Machine :=
  { m.push next with pc := target, ir := m.mem target }

/-- A return: the word on top of the stack becomes the program counter, and the
byte there is latched. -/
def ret (m : Machine) : Machine :=
  { m with sp := m.sp + 2, pc := m.read16 m.sp, ir := m.mem (m.read16 m.sp) }

variable {m : Machine} {p : Preset}

theorem read16_call (m : Machine) (next target : UInt16) :
    (m.call next target).read16 (m.call next target).sp = next :=
  m.read16_push next

theorem sp_ret_call (m : Machine) (next target : UInt16) : (m.call next target).ret.sp = m.sp :=
  UInt16.sub_add_cancel m.sp 2

theorem run_call (h : m.Holds p) (next target : UInt16) :
    m.run (Queue.pushWord p.regs.sp next ++ Queue.jumpTo p target) = m.call next target := by
  rw [h.sp, run_append, run_pushWord, Queue.jumpTo, h.mem]
  rfl

theorem run_ret (h : m.Holds p) :
    m.run (Queue.popWord p.regs.sp [] ++ Queue.jumpTo p (p.read16 p.regs.sp) ++ [.halt]) =
      m.ret := by
  rw [h.read16, h.sp, run_append, run_append, run_popWord, Queue.jumpTo, h.mem]
  rfl

end Machine

/-! ## Traces of calls and returns -/

/-- The machine that a trace ends in. -/
def Trace.final (t : Trace) (ir : UInt8) : Machine :=
  (t.preset.preset.machine ir).run t.queue

/-- The trace calls: a return from its last machine goes on at `next`, which stands
on top of the stack, with the registers and the stack of the caller. -/
structure Trace.Calls (t : Trace) (next : UInt16) : Prop where
  word : ∀ ir, (t.final ir).read16 (t.final ir).sp = next
  resumes : ∀ ir, (t.final ir).ret.pc = next
  stack : ∀ ir, (t.final ir).ret.sp = t.preset.preset.regs.sp
  registers : ∀ ir, (t.final ir).ret.reg = t.preset.preset.regs.get8

namespace Instruction

variable {e : Encoding} {i : Instruction} {t : Trace}

theorem queue_eq_execution (ht : t ∈ i.traces e) (houtcome : t.outcome ≠ some .notTaken) :
    t.queue = i.execution t.preset.preset e := by
  rw [queue_of_mem_traces ht, if_neg houtcome, execution, opening_eq, List.append_assoc]

/-- A trace that takes its effect ends in what the effect makes of the machine that
has read the stream. -/
theorem exists_final_eq (h : i.streamLength ≤ e.bytes.length) (ht : t ∈ i.traces e)
    (houtcome : t.outcome ≠ some .notTaken) :
    ∃ latch, ∀ ir, t.final ir = ({ t.preset.preset.machine ir with
      pc := UInt16.ofNat i.streamLength, ir := latch } : Machine).run
        (i.effect t.preset.preset e) := by
  obtain ⟨latch, -, hrun⟩ := run_execution h t.preset
  refine ⟨latch, ?_⟩
  intro ir
  rw [Trace.final, queue_eq_execution ht houtcome, hrun]

theorem lastPc?_of_mem_traces (h : i.streamLength ≤ e.bytes.length) (ht : t ∈ i.traces e) :
    Queue.lastPc? (t.queue.take (3 * i.streamLength)) = some (UInt16.ofNat i.streamLength) := by
  rw [(Queue.take_drop_reading h (queue_of_mem_traces ht)).1,
    Queue.lastPc?_reading (take_bytes_ne_nil e i), List.length_take, Nat.min_eq_left h]

theorem nextPc_preset (p : PresetName) (length : Nat) :
    nextPc p.preset length = UInt16.ofNat length := by
  rw [nextPc, pc_preset, UInt16.zero_add]

/-- A call returns behind its declared bytes. -/
theorem calls_of_mem_traces (h : i.streamLength ≤ e.bytes.length) (ht : t ∈ i.traces e)
    (houtcome : t.outcome ≠ some .notTaken) {target : UInt16}
    (heffect : i.effect t.preset.preset e =
      Queue.pushWord t.preset.preset.regs.sp (nextPc t.preset.preset e.length) ++
        Queue.jumpTo t.preset.preset target) :
    t.Calls (UInt16.ofNat e.length) := by
  obtain ⟨latch, hfinal⟩ := exists_final_eq h ht houtcome
  have hcall : ∀ ir, t.final ir = ({ t.preset.preset.machine ir with
      pc := UInt16.ofNat i.streamLength, ir := latch } : Machine).call
        (UInt16.ofNat e.length) target := by
    intro ir
    rw [hfinal, heffect, nextPc_preset, Machine.run_call (Preset.holds_machine ..)]
  refine ⟨?_, ?_, ?_, ?_⟩ <;> intro ir <;> rw [hcall]
  · exact Machine.read16_call ..
  · exact Machine.read16_call ..
  · exact Machine.sp_ret_call ..
  · rfl

/-- The trace of a `RET` is a return of its machine. -/
theorem final_of_mem_traces_ret {c : Option Condition} (ht : t ∈ (transfer (.ret c)).traces e)
    (houtcome : t.outcome ≠ some .notTaken) (ir : UInt8) :
    t.final ir = (t.preset.preset.machine ir).ret := by
  have hle : (transfer (.ret c)).streamLength ≤ e.bytes.length :=
    Nat.succ_le_succ (Nat.zero_le e.tail.length)
  obtain ⟨latch, hfinal⟩ := exists_final_eq hle ht houtcome
  rw [hfinal]
  exact Machine.run_ret (Preset.holds_machine ..)

end Instruction

/-! ## Subroutines of descriptors -/

namespace Descriptor

/-- A restart is accepted by the cycles it declares and the vector in its opcode. The
bytes behind the opcode are not looked at. -/
theorem exists_assemble_iff_of_restart {d : Descriptor} {e : Encoding} {target : Option Operand}
    (hop : d.operation = .jump .rst none target) (he : d.encoding = .ok e) :
    (∃ ts, d.assemble = .ok ts) ↔
      (∀ o ∈ target, Instruction.namesVector (Instruction.vectorOf e.lead) o.kind = true) ∧
        d.duration.toNat = 4 := by
  constructor
  · rintro ⟨ts, hts⟩
    obtain ⟨e', i, he', hdenotes, -, hcycles, -⟩ := assemble_eq_ok_iff_denotes.mp hts
    obtain rfl : e' = e := Except.ok.inj (he'.symm.trans he)
    rw [hop] at hdenotes
    cases hdenotes with
    | restart hvector => exact ⟨hvector, hcycles.symm⟩
  · rintro ⟨hvector, hcycles⟩
    have hdenotes : Instruction.Denotes e d.operation
        (.transfer (.restart (Instruction.vectorOf e.lead).toUInt16)) :=
      hop ▸ .restart hvector
    exact ⟨_, assemble_of_denotes he hdenotes rfl hcycles.symm⟩

/-- A restart that is accepted is accepted with any bytes behind its opcode. -/
theorem exists_assemble_of_restart {d d' : Descriptor} {target : Option Operand} {ts : List Trace}
    (h : d.assemble = .ok ts) (hop : d.operation = .jump .rst none target)
    (hop' : d'.operation = d.operation) (hduration : d'.duration = d.duration)
    (hlead : d'.encoding.map Encoding.lead = d.encoding.map Encoding.lead) :
    ∃ ts', d'.assemble = .ok ts' := by
  obtain ⟨e, -, he, -⟩ := assemble_eq_ok_iff.mp h
  have haccepted := (exists_assemble_iff_of_restart hop he).mp ⟨ts, h⟩
  rw [he] at hlead
  cases he' : d'.encoding with
  | error reason =>
      rw [he'] at hlead
      cases hlead
  | ok e' =>
      rw [he'] at hlead
      have heq : e'.lead = e.lead := Except.ok.inj hlead
      rw [exists_assemble_iff_of_restart (hop'.trans hop) he', heq, hduration]
      exact haccepted

/-- **Calls and returns.** An accepted call, taken or without a condition, returns
behind its declared bytes. The stream has left the program counter there too, unless
the call is a restart of more than one byte. An accepted `RET`, taken or without a
condition, is a return of its machine. A restart is accepted with any bytes behind its
opcode, and its stream leaves the program counter behind the opcode. -/
theorem calls_of_assemble {d : Descriptor} {ts : List Trace} {kind : JumpKind}
    {c : Option Condition} {target : Option Operand} (h : d.assemble = .ok ts)
    (hop : d.operation = .jump kind c target) :
    (kind = .call ∨ kind = .rst → ∀ t ∈ ts, t.outcome ≠ some .notTaken →
      t.Calls d.byteLength.toUInt16 ∧
      (Queue.lastPc? (t.queue.take (3 * d.streamLength)) = some d.byteLength.toUInt16 ↔
        kind = .call ∨ d.byteLength = 1)) ∧
    (kind = .ret → ∀ t ∈ ts, t.outcome ≠ some .notTaken → ∀ ir,
      t.final ir = (t.preset.preset.machine ir).ret) ∧
    (kind = .rst →
      (∀ t ∈ ts, Queue.lastPc? (t.queue.take (3 * d.streamLength)) = some 1) ∧
      ∀ d' : Descriptor, d'.operation = d.operation → d'.duration = d.duration →
        d'.encoding.map Encoding.lead = d.encoding.map Encoding.lead →
        ∃ ts', d'.assemble = .ok ts') := by
  obtain ⟨e, i, he, hdenotes, hfits, hstream, hle, rfl⟩ := exists_stream_of_assemble h
  have hlength : d.byteLength.toUInt16 = UInt16.ofNat e.length := by
    rw [Encoding.length, (bytes_of_encoding he).2.1, UInt16.ofNat_uInt8ToNat]
  rw [hop] at hdenotes
  refine ⟨?call, ?ret, ?restart⟩
  case call =>
    intro hkind t ht houtcome
    rw [hstream, Instruction.lastPc?_of_mem_traces hle ht, Option.some.injEq]
    cases hdenotes with
    | call c a =>
        have htail : e.tail = littleEndian a :=
          (Instruction.fits_iff.mp hfits).resolve_left (List.cons_ne_nil _ _)
        have hthree : (Instruction.transfer (.call c a)).streamLength = e.length := by
          rw [Encoding.length, Encoding.bytes, htail]
          rfl
        rw [hthree, hlength]
        exact ⟨Instruction.calls_of_mem_traces hle ht houtcome rfl, iff_of_true rfl (Or.inl rfl)⟩
    | restart =>
        have hone : UInt16.ofNat 1 = d.byteLength.toUInt16 ↔ d.byteLength = 1 := by
          rw [← UInt16.toNat_inj, ← UInt8.toNat_inj, UInt8.toNat_toUInt16]
          exact eq_comm
        refine ⟨?_, hone.trans (or_iff_right (by decide)).symm⟩
        rw [hlength]
        exact Instruction.calls_of_mem_traces hle ht houtcome rfl
    | _ => rcases hkind with hkind | hkind <;> cases hkind
  case ret =>
    rintro rfl t ht houtcome ir
    cases hdenotes with
    | ret => exact Instruction.final_of_mem_traces_ret ht houtcome ir
  case restart =>
    rintro rfl
    cases hdenotes with
    | restart hvector =>
        refine ⟨?_, fun d' => exists_assemble_of_restart h hop⟩
        intro t ht
        rw [hstream]
        exact Instruction.lastPc?_of_mem_traces hle ht

/-- `CALL NZ` of an address. -/
def callSample : Descriptor :=
  ⟨0xC43412, 3, 6, .jump .call (some .notZero) (some ⟨.imm16 0x1234, false⟩)⟩

theorem assemble_callSample : callSample.assemble =
    .ok ((Instruction.transfer (.call (some .notZero) 0x1234)).traces ⟨0xC4, [0x34, 0x12]⟩) :=
  assemble_of_denotes rfl (.call _ _) rfl rfl

/-- A restart of one byte. -/
def restartSample : Descriptor :=
  ⟨0xC7, 1, 4, .jump .rst none none⟩

theorem assemble_restartSample : restartSample.assemble =
    .ok ((Instruction.transfer (.restart 0)).traces ⟨0xC7, []⟩) :=
  assemble_of_denotes rfl (.restart (by simp)) rfl rfl

/-- A restart of two bytes. -/
def longRestartSample : Descriptor :=
  ⟨0xC700, 2, 4, .jump .rst none none⟩

/-- The call, if it is taken, returns behind its three bytes, where the stream has
left the program counter. So does the restart of one byte behind this byte, and the
restart of two bytes is accepted with it. -/
theorem calls_of_assemble_callSample :
    (∃ taken notTaken, callSample.assemble = .ok [taken, notTaken] ∧ taken.Calls 3 ∧
      Queue.lastPc? (taken.queue.take 9) = some 3) ∧
    (∃ t, returnSample.assemble = .ok [t] ∧
      ∀ ir, t.final ir = (t.preset.preset.machine ir).ret) ∧
    (∃ t, restartSample.assemble = .ok [t] ∧ t.Calls 1 ∧
      Queue.lastPc? (t.queue.take 3) = some 1) ∧
    ∃ ts, longRestartSample.assemble = .ok ts := by
  have hcall := (calls_of_assemble assemble_callSample rfl).1 (Or.inl rfl) _
    (List.mem_cons_self ..) (by decide)
  have hret := (calls_of_assemble assemble_returnSample rfl).2.1 rfl _
    (List.mem_cons_self ..) (by decide)
  have hrestart := (calls_of_assemble assemble_restartSample rfl).1 (Or.inr rfl) _
    (List.mem_cons_self ..) (by decide)
  obtain ⟨hlast, hlong⟩ := (calls_of_assemble assemble_restartSample rfl).2.2 rfl
  exact ⟨⟨_, _, assemble_callSample, hcall.1, hcall.2.mpr (Or.inl rfl)⟩,
    ⟨_, assemble_returnSample, hret⟩,
    ⟨_, assemble_restartSample, hrestart.1, hlast _ (List.mem_cons_self ..)⟩,
    hlong longRestartSample rfl rfl rfl⟩

/-- The restart of two bytes has its opcode read and no more, and returns behind two
bytes. -/
theorem longRestart_calls_beyond :
    ∃ t, longRestartSample.assemble = .ok [t] ∧ t.Calls 2 ∧
      Queue.lastPc? (t.queue.take (3 * longRestartSample.streamLength)) = some 1 := by
  have hassemble : longRestartSample.assemble =
      .ok ((Instruction.transfer (.restart 0)).traces ⟨0xC7, [0x00]⟩) :=
    assemble_of_denotes rfl (.restart (by simp)) rfl rfl
  have hcalls := Instruction.calls_of_mem_traces (i := .transfer (.restart 0))
    (e := ⟨0xC7, [0x00]⟩) (by decide) (List.mem_cons_self ..) (by decide) rfl
  exact ⟨_, hassemble, hcalls, by decide⟩

end Descriptor

end GoldenTrace
