import GoldenTrace.Proofs.Alu.Passes

/-!
# What loads do

A load moves a byte or a word from its source to its destination. The meaning of
every accepted shape of operands is written down as a relation between machines,
and the trace of a load is shown to end in the machine that the load leads to.
-/

namespace GoldenTrace

/-! ## The meaning of loads -/

/-- The pair that points at memory moves by one. -/
def Machine.adjust (m : Machine) (rr : Reg16) : PostLoad → Machine
  | .increment => m.set16 rr (m.get16 rr + 1)
  | .decrement => m.set16 rr (m.get16 rr - 1)
  | .none | .addSigned _ => m

/-- The lower four bits of `F` are not taken from the stack. -/
def Machine.popped (m : Machine) : Reg16 → UInt16
  | .af => m.read16 m.sp &&& 0xFFF0
  | _ => m.read16 m.sp

/-- `Loads m dst src post m'` says that the load of `src` to `dst` leads from `m` to
`m'`. Registers and addresses on the right are those of `m`. -/
inductive Loads (m : Machine) : Operand → Operand → PostLoad → Machine → Prop
  | register (r s : Reg8) : Loads m (.reg8 r) (.reg8 s) .none (m.set8 r (m.reg s))
  | fromPointer (r : Reg8) {rr : Reg16} (hrr : rr ≠ .sp) {post : PostLoad}
      (hpost : ∀ d, post ≠ .addSigned d) :
      Loads m (.reg8 r) ⟨.register16 rr, true⟩ post
        ((m.adjust rr post).set8 r (m.mem (m.get16 rr)))
  | toPointer {rr : Reg16} (hrr : rr ≠ .sp) (s : Reg8) {post : PostLoad}
      (hpost : ∀ d, post ≠ .addSigned d) :
      Loads m ⟨.register16 rr, true⟩ (.reg8 s) post
        ((m.adjust rr post).store (m.get16 rr) (m.reg s))
  | pairImmediate (rr : Reg16) (v : UInt16) :
      Loads m (.reg16 rr) ⟨.imm16 v, false⟩ .none (m.set16 rr v)
  | immediate (r : Reg8) (v : UInt8) :
      Loads m (.reg8 r) ⟨.imm8 v, false⟩ .none (m.set8 r v)
  | pointerImmediate {rr : Reg16} (hrr : rr ≠ .sp) (v : UInt8) :
      Loads m ⟨.register16 rr, true⟩ ⟨.imm8 v, false⟩ .none (m.store (m.get16 rr) v)
  | storeStackPointer (a : UInt16) :
      Loads m ⟨.imm16 a, true⟩ (.reg16 .sp) .none
        ((m.store a (lowByte m.sp)).store (a + 1) (highByte m.sp))
  | pop {rr : Reg16} (hrr : rr ≠ .sp) :
      Loads m (.reg16 rr) ⟨.register16 .sp, true⟩ .none
        ({ m with sp := m.sp + 2 }.set16 rr (m.popped rr))
  | push {rr : Reg16} (hrr : rr ≠ .sp) :
      Loads m ⟨.register16 .sp, true⟩ (.reg16 rr) .none (m.push (m.get16 rr))
  | highStore (o : UInt8) (s : Reg8) :
      Loads m ⟨.imm8 o, true⟩ (.reg8 s) .none (m.store (0xFF00 + o.toUInt16) (m.reg s))
  | highLoad (r : Reg8) (o : UInt8) :
      Loads m (.reg8 r) ⟨.imm8 o, true⟩ .none (m.set8 r (m.mem (0xFF00 + o.toUInt16)))
  | absoluteStore (a : UInt16) (s : Reg8) :
      Loads m ⟨.imm16 a, true⟩ (.reg8 s) .none (m.store a (m.reg s))
  | absoluteLoad (r : Reg8) (a : UInt16) :
      Loads m (.reg8 r) ⟨.imm16 a, true⟩ .none (m.set8 r (m.mem a))
  | portLoad (r port : Reg8) :
      Loads m (.reg8 r) ⟨.register8 port, true⟩ .none
        (m.set8 r (m.mem (0xFF00 + (m.reg port).toUInt16)))
  | portStore (port s : Reg8) :
      Loads m ⟨.register8 port, true⟩ (.reg8 s) .none
        (m.store (0xFF00 + (m.reg port).toUInt16) (m.reg s))
  | stackFromHl :
      Loads m (.reg16 .sp) (.reg16 .hl) .none { m with sp := m.get16 .hl }
  /-- The flags are those of the addition of the low bytes. -/
  | hlFromStack (d : Int8) :
      Loads m (.reg16 .hl) (.reg16 .sp) (.addSigned d)
        ((m.setFlags ((m.sp.toNat + d.toUInt8.toNat) % 256 == 0) false
          (16 ≤ m.sp.toNat % 16 + d.toUInt8.toNat % 16)
          (256 ≤ m.sp.toNat % 256 + d.toUInt8.toNat)).set16 .hl (displace m.sp d))

/-- The shapes of operands that a load may have. -/
def Loadable (dst src : Operand) (post : PostLoad) : Prop :=
  ∃ m m', Loads m dst src post m'

/-- A load leads to one machine. -/
theorem Loads.unique {m m₁ m₂ : Machine} {dst src : Operand} {post : PostLoad}
    (h₁ : Loads m dst src post m₁) (h₂ : Loads m dst src post m₂) : m₁ = m₂ := by
  cases h₁ <;> cases h₂ <;> rfl

/-- Every shape is that of a legal load. -/
theorem Loads.exists_load {m m' : Machine} {dst src : Operand} {post : PostLoad}
    (h : Loads m dst src post m') :
    ∃ l : Load, l.Legal ∧ dst = l.dst ∧ src = l.src ∧ post = l.postLoad := by
  have hstep : ∀ post : PostLoad, (∀ d, post ≠ .addSigned d) → ∃ step, post = .ofStep step := by
    intro post hpost
    cases post with
    | none => exact ⟨none, rfl⟩
    | increment => exact ⟨some .up, rfl⟩
    | decrement => exact ⟨some .down, rfl⟩
    | addSigned d => exact absurd rfl (hpost d)
  cases h with
  | register r s => exact ⟨.register r s, trivial, rfl, rfl, rfl⟩
  | @fromPointer r rr hrr post hpost =>
      obtain ⟨step, rfl⟩ := hstep post hpost
      exact ⟨.fromPointer r rr step, hrr, rfl, rfl, rfl⟩
  | @toPointer rr hrr s post hpost =>
      obtain ⟨step, rfl⟩ := hstep post hpost
      exact ⟨.toPointer rr s step, hrr, rfl, rfl, rfl⟩
  | pairImmediate rr v => exact ⟨.pairImmediate rr v, trivial, rfl, rfl, rfl⟩
  | immediate r v => exact ⟨.immediate r v, trivial, rfl, rfl, rfl⟩
  | @pointerImmediate rr hrr v => exact ⟨.pointerImmediate rr v, hrr, rfl, rfl, rfl⟩
  | storeStackPointer a => exact ⟨.storeStackPointer a, trivial, rfl, rfl, rfl⟩
  | @pop rr hrr => exact ⟨.pop rr, hrr, rfl, rfl, rfl⟩
  | @push rr hrr => exact ⟨.push rr, hrr, rfl, rfl, rfl⟩
  | highStore o s => exact ⟨.highStore o s, trivial, rfl, rfl, rfl⟩
  | highLoad r o => exact ⟨.highLoad r o, trivial, rfl, rfl, rfl⟩
  | absoluteStore a s => exact ⟨.absoluteStore a s, trivial, rfl, rfl, rfl⟩
  | absoluteLoad r a => exact ⟨.absoluteLoad r a, trivial, rfl, rfl, rfl⟩
  | portLoad r port => exact ⟨.indexedLoad r port, trivial, rfl, rfl, rfl⟩
  | portStore port s => exact ⟨.indexedStore port s, trivial, rfl, rfl, rfl⟩
  | stackFromHl => exact ⟨.stackFromHl, trivial, rfl, rfl, rfl⟩
  | hlFromStack d => exact ⟨.hlFromStack d, trivial, rfl, rfl, rfl⟩

/-! ## Traces of loads -/

theorem highPage_eq (offset : UInt8) : highPage offset = 0xFF00 + offset.toUInt16 := by
  have hlt := offset.toNat_lt
  have hbase : (0xFF00 : UInt16).toNat = 0xFF00 := rfl
  have hhigh : (0xFF : UInt8).toNat = 0xFF := rfl
  apply UInt16.toNat_inj.mp
  rw [highPage, toNat_word, UInt16.toNat_add, UInt8.toNat_toUInt16, hbase, hhigh]
  omega

namespace Instruction

open Queue

variable {m : Machine} {p : Preset}

theorem run_stepPointer {rr : Reg16} (h : p.regs.get16 rr = m.get16 rr) (step : Option Step) :
    m.run (stepPointer p rr step) = m.adjust rr (.ofStep step) := by
  rcases step with _ | (_ | _)
  · rfl
  · rw [stepPointer, h]
    rfl
  · rw [stepPointer, h]
    rfl

/-- HL takes its low byte before the flags and its high byte behind them. -/
theorem run_hlFromStackEffect (h : m.Holds p) (d : Int8) :
    m.run (hlFromStackEffect p d) =
      (m.setFlags ((m.sp.toNat + d.toUInt8.toNat) % 256 == 0) false
        (16 ≤ m.sp.toNat % 16 + d.toUInt8.toNat % 16)
        (256 ≤ m.sp.toNat % 256 + d.toUInt8.toNat)).set16 .hl (displace m.sp d) := by
  have hrun (low high : UInt8) (z n g c : Bool) :
      m.run (.write (.register8 .l low) :: ofFlags (.all z n g c) ++
        [.halt, .write (.register8 .h high)]) =
        ((m.setFlags z n g c).set8 .h high).set8 .l low := by
    rw [Machine.run_append, Machine.run_write, Machine.run_ofFlags]
    show ((m.set8 .l low).setFlags z n g c).set8 .h high = _
    rw [Machine.setFlags_set8 m (by decide), Machine.set8_comm _ (by decide)]
  rw [hlFromStackEffect, h.sp, byteFlags_displace, hrun]
  show _ = ((m.setFlags _ _ _ _).set8 .h (highByte _)).set8 .l (lowByte _)
  rw [lowByte_displace, highByte_displace, displacedHigh, byteFlags_displace]
  rfl

/-- **Effects of loads.** -/
theorem loads_loadEffect (h : m.Holds p) {l : Load} (hl : l.Legal) :
    Loads m l.dst l.src l.postLoad (m.run (loadEffect p l)) := by
  have hadjust : ∀ step : Option Step, ∀ d, PostLoad.ofStep step ≠ .addSigned d := by
    rintro (_ | _ | _) d heq <;> cases heq
  cases l with
  | register dst src =>
      rw [loadEffect, h.reg]
      exact .register dst src
  | fromPointer dst ptr step =>
      rw [loadEffect, Machine.run_append, run_stepPointer (h.get16 ptr), h.get16, h.mem]
      exact .fromPointer dst hl (hadjust step)
  | toPointer ptr src step =>
      have hsame : p.regs.get16 ptr = (m.store (m.get16 ptr) (m.reg src)).get16 ptr :=
        h.get16 ptr
      have hrun : m.run (loadEffect p (.toPointer ptr src step)) =
          (m.adjust ptr (.ofStep step)).store (m.get16 ptr) (m.reg src) := by
        rw [loadEffect, h.get16, h.reg, Machine.run_append]
        show (m.store _ _).run (stepPointer p ptr step) = _
        rw [run_stepPointer hsame]
        rcases step with _ | (_ | _) <;> cases ptr <;> rfl
      rw [hrun]
      exact .toPointer hl src (hadjust step)
  | pairImmediate dst v => exact .pairImmediate dst v
  | immediate dst v => exact .immediate dst v
  | pointerImmediate ptr v =>
      rw [loadEffect, h.get16]
      exact .pointerImmediate hl v
  | storeStackPointer a =>
      rw [loadEffect, h.sp]
      exact .storeStackPointer a
  | pop dst =>
      have hword : poppedWord p dst = m.popped dst := by
        cases dst <;> simp only [poppedWord, Machine.popped, h.read16, h.sp]
      rw [loadEffect, Machine.run_append, hword, h.sp]
      exact .pop hl
  | push src =>
      rw [loadEffect, h.sp, h.get16, Machine.run_pushWord]
      exact .push hl
  | highStore offset src =>
      rw [loadEffect, highPage_eq, h.reg]
      exact .highStore offset src
  | highLoad dst offset =>
      rw [loadEffect, highPage_eq, h.mem]
      exact .highLoad dst offset
  | absoluteStore a src =>
      rw [loadEffect, h.reg]
      exact .absoluteStore a src
  | absoluteLoad dst a =>
      rw [loadEffect, h.mem]
      exact .absoluteLoad dst a
  | indexedLoad dst index =>
      rw [loadEffect, highPage_eq, h.mem, h.reg]
      exact .portLoad dst index
  | indexedStore index src =>
      rw [loadEffect, highPage_eq, h.reg]
      exact .portStore index src
  | stackFromHl =>
      rw [loadEffect, h.get16]
      exact .stackFromHl
  | hlFromStack d =>
      rw [loadEffect, run_hlFromStackEffect h]
      exact .hlFromStack d

end Instruction

/-! ## Loads of descriptors -/

theorem Loadable.exists_load {dst src : Operand} {post : PostLoad}
    (h : Loadable dst src post) :
    ∃ l : Load, l.Legal ∧ dst = l.dst ∧ src = l.src ∧ post = l.postLoad := by
  obtain ⟨m, m', hm⟩ := h
  exact hm.exists_load

theorem Load.loadable {l : Load} (h : l.Legal) : Loadable l.dst l.src l.postLoad :=
  ⟨_, _, Instruction.loads_loadEffect
    (PresetName.default.preset.holds_machine 0 0 0) h⟩

namespace Descriptor

section

variable {d : Descriptor} {e : Encoding} {dst src : Operand} {post : PostLoad}

/-- Operands of no known shape are refused as they stand. -/
theorem assemble_of_not_loadable (hop : d.operation = .load (some dst) (some src) post)
    (he : d.encoding = .ok e) (h : ¬ Loadable dst src post) :
    d.assemble = .error (.unsupported (.load dst src post)) := by
  have hnone : Load.ofOperands? dst src post = none := by
    rw [Option.eq_none_iff_forall_ne_some]
    intro l hl
    obtain ⟨rfl, rfl, rfl, hlegal⟩ := Load.ofOperands?_eq_some_iff.mp hl
    exact h (Load.loadable hlegal)
  refine assemble_of_refusal he ?_
  rw [hop]
  simp [Instruction.ofOperation, Instruction.ofLoad, require, hnone, bind, Except.bind]

/-- A known shape is accepted with its immediate behind the opcode and with the
cycles of the table. -/
theorem exists_assemble_iff_of_loadable (hop : d.operation = .load (some dst) (some src) post)
    (he : d.encoding = .ok e) (h : Loadable dst src post) :
    (∃ ts, d.assemble = .ok ts) ↔
      (d.operation.immediate = [] ∨ e.tail = d.operation.immediate) ∧
        Operation.loadCycles dst src = some d.duration.toNat := by
  obtain ⟨l, hlegal, rfl, rfl, rfl⟩ := h.exists_load
  have hdenotes : Instruction.Denotes e d.operation (.load l) := hop ▸ .load l hlegal
  have hfits : (Instruction.load l).fits e = true ↔
      d.operation.immediate = [] ∨ e.tail = d.operation.immediate := by
    rw [hdenotes.immediate_eq, Instruction.fits_iff]
  rw [← hfits, Instruction.loadCycles_eq hlegal, Option.some.injEq]
  constructor
  · rintro ⟨ts, hts⟩
    obtain ⟨e', i, he', hi, hfit, hcycles, -⟩ := assemble_eq_ok_iff_denotes.mp hts
    obtain rfl : e' = e := Except.ok.inj (he'.symm.trans he)
    obtain rfl : i = .load l := Except.ok.inj (hi.ofOperation.symm.trans hdenotes.ofOperation)
    exact ⟨hfit, hcycles⟩
  · rintro ⟨hfit, hcycles⟩
    exact ⟨_, assemble_of_denotes he hdenotes hfit hcycles⟩

end

/-- **Loads.** With operands present and bytes that make a stream, a load is
unsupported unless its operands have one of the known shapes. The one trace of a
load that is accepted ends, whatever was latched before, in the machine that has
read the stream and then loaded. -/
theorem loads_of_assemble {d : Descriptor} {dst src : Option Operand} {post : PostLoad}
    (hop : d.operation = .load dst src post) :
    (∀ e o o', d.encoding = .ok e → dst = some o → src = some o' →
      (¬ Loadable o o' post → d.assemble = .error (.unsupported (.load o o' post))) ∧
      (Loadable o o' post → ((∃ ts, d.assemble = .ok ts) ↔
        (d.operation.immediate = [] ∨ e.tail = d.operation.immediate) ∧
          Operation.loadCycles o o' = some d.duration.toNat))) ∧
    ∀ ts, d.assemble = .ok ts → ∃ o o' t b latch, dst = some o ∧ src = some o' ∧
      Loadable o o' post ∧ ts = [t] ∧ d.bytes? = some b ∧
      (b.take d.streamLength).getLast? = some latch ∧
      ∀ ir m', (t.preset.preset.machine ir).run t.queue = m' ↔
        Loads { t.preset.preset.machine ir with pc := UInt16.ofNat d.streamLength, ir := latch }
          o o' post m' := by
  constructor
  · rintro e o o' he rfl rfl
    exact ⟨assemble_of_not_loadable hop he, exists_assemble_iff_of_loadable hop he⟩
  · intro ts hts
    obtain ⟨e, i, he, hdenotes, -, hstream, hle, rfl⟩ := exists_stream_of_assemble hts
    rw [hop] at hdenotes
    cases hdenotes with
    | load l hlegal =>
      obtain ⟨latch, hlatch, hrun⟩ := Instruction.run_execution hle l.preset
      rw [← hstream] at hlatch hrun
      refine ⟨_, _, _, e.bytes, latch, rfl, rfl, Load.loadable hlegal, rfl,
        (bytes_of_encoding he).1, hlatch, ?_⟩
      intro ir m'
      have hloads := Instruction.loads_loadEffect
        (l.preset.preset.holds_machine ir (UInt16.ofNat d.streamLength) latch) hlegal
      constructor
      · rintro rfl
        exact hrun ir ▸ hloads
      · intro hm'
        exact (hrun ir).trans (hloads.unique hm')

/-- `LD HL,SP-16`. -/
def stackLoadSample : Descriptor :=
  ⟨0xF8F0, 2, 3, .load (some (.reg16 .hl)) (some (.reg16 .sp)) (.addSigned (-16))⟩

theorem assemble_stackLoadSample : stackLoadSample.assemble =
    .ok ((Instruction.load (.hlFromStack (-16))).traces ⟨0xF8, [0xF0]⟩) :=
  assemble_of_denotes rfl (.load (.hlFromStack (-16)) trivial) rfl rfl

/-- The load from memory to memory that there is not. -/
def memoryLoadSample : Descriptor :=
  ⟨0x00, 1, 1, .load (some ⟨.register16 .hl, true⟩) (some ⟨.register16 .hl, true⟩) .none⟩

/-- The load of HL from the stack pointer ends in a machine that has loaded it, and
a load from memory to memory is unsupported. -/
theorem loads_of_assemble_stack :
    (∃ t, stackLoadSample.assemble = .ok [t] ∧ ∀ ir,
      Loads { t.preset.preset.machine ir with pc := 2, ir := 0xF0 } (.reg16 .hl) (.reg16 .sp)
        (.addSigned (-16)) ((t.preset.preset.machine ir).run t.queue)) ∧
    ∃ gap, memoryLoadSample.assemble = .error (.unsupported gap) := by
  constructor
  · obtain ⟨o, o', t, b, latch, ho, ho', -, hts, hb, hlatch, hruns⟩ :=
      (loads_of_assemble (d := stackLoadSample) rfl).2 _ assemble_stackLoadSample
    obtain rfl := Option.some.inj ho
    obtain rfl := Option.some.inj ho'
    obtain rfl : b = [0xF8, 0xF0] := Option.some.inj (hb.symm.trans (by decide))
    obtain rfl : latch = 0xF0 := Option.some.inj (hlatch.symm.trans (by decide))
    exact ⟨t, hts ▸ assemble_stackLoadSample, fun ir => (hruns ir _).mp rfl⟩
  · have hshape : ¬ Loadable ⟨.register16 .hl, true⟩ ⟨.register16 .hl, true⟩ .none := by
      rintro ⟨m, m', h⟩
      cases h
    have he : memoryLoadSample.encoding = .ok ⟨0x00, []⟩ := rfl
    exact ⟨_, ((loads_of_assemble (d := memoryLoadSample) rfl).1 _ _ _ he rfl rfl).1 hshape⟩

end Descriptor

end GoldenTrace
