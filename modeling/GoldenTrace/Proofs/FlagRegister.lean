import GoldenTrace.Proofs.Machine

/-!
# The flag register

The lower four bits of register `F` should always be zero, and a pop into `AF` masks
what it finds on the stack. No other operation masks what it puts there, so whether
a trace keeps these bits zero depends on its operands. The operations that do are
described here, and no others do.
-/

namespace GoldenTrace

namespace Write

/-- What is put into register `F`, or into the pair that contains it, has zeros for its
lower four bits. -/
def FlagsOnly : Write → Prop
  | register8 r v => r = .f → Alu.nibble v.toNat = 0
  | register16 rr v => rr = .af → Alu.nibble v.toNat = 0
  | _ => True

@[simp] theorem flagsOnly_register8 {r : Reg8} {v : UInt8} :
    (register8 r v).FlagsOnly ↔ (r = .f → Alu.nibble v.toNat = 0) := .rfl

@[simp] theorem flagsOnly_register16 {rr : Reg16} {v : UInt16} :
    (register16 rr v).FlagsOnly ↔ (rr = .af → Alu.nibble v.toNat = 0) := .rfl

@[simp] theorem flagsOnly_memory (a : UInt16) (v : UInt8) : (memory a v).FlagsOnly := trivial

@[simp] theorem flagsOnly_setFlag (f : Flag) (b : Bool) : (setFlag f b).FlagsOnly := trivial

@[simp] theorem flagsOnly_setIme (b : Bool) : (setIme b).FlagsOnly := trivial

@[simp] theorem flagsOnly_addressBus (v : UInt16) : (addressBus v).FlagsOnly := trivial

@[simp] theorem flagsOnly_dataBus (v : UInt8) : (dataBus v).FlagsOnly := trivial

@[simp] theorem flagsOnly_pc (v : UInt16) : (pc v).FlagsOnly := trivial

@[simp] theorem flagsOnly_ir (v : UInt8) : (ir v).FlagsOnly := trivial

end Write

/-! ## Operations that put nothing but flags into the register -/

/-- The lower four bits of a source are zero in the states that traces start from.
Memory holds the low byte of its own address, so it makes no difference whether the
source is an address. -/
def Operand.LowClear (o : Operand) : Prop :=
  match o.kind with
  | .register8 r => r = .f
  | .register16 rr => rr = .af
  | .imm8 v => Alu.nibble v.toNat = 0
  | .imm16 v => Alu.nibble v.toNat = 0
  | .signedImm8 d => Alu.nibble d.toUInt8.toNat = 0

namespace Operation

/-- A load into the register needs a source with clear lower bits, unless it is a pop,
and `AF` is not stepped as a pointer. -/
def LoadFlagsOnly (dst src : Operand) (post : PostLoad) : Prop :=
  (dst = .reg8 .f → src.LowClear) ∧
  (dst = .reg16 .af → src = ⟨.register16 .sp, true⟩ ∨ src.LowClear) ∧
  (post = .increment ∨ post = .decrement →
    dst ≠ ⟨.register16 .af, true⟩ ∧ src ≠ ⟨.register16 .af, true⟩)

/-- The operation keeps the lower four bits of the register zero. -/
def FlagsOnly : Operation → Prop
  | arithmetic8 op lhs _ => lhs = some (.reg8 .f) → op ≠ .inc ∧ op ≠ .dec
  | arithmetic16 _ lhs _ => lhs ≠ some (.reg16 .af)
  | bitwise op bit operand => op = .set → operand = some (.reg8 .f) → ∀ b ∈ bit, 4 ≤ b
  | load (some dst) (some src) post => LoadFlagsOnly dst src post
  | rotate op operand => operand = some (.reg8 .f) → op = .sla
  | load .. | jump .. | control .. => True

end Operation

/-! ## Lower bits in the states that traces start from -/

theorem nibble_and {a : Nat} (b : Nat) (ha : Alu.nibble a = 0) : Alu.nibble (a &&& b) = 0 := by
  have hmod : (a &&& b) % 16 = a % 16 &&& b % 16 := Nat.and_mod_two_pow (n := 4)
  rw [Alu.nibble] at ha ⊢
  rw [hmod, ha, Nat.zero_and]

theorem nibble_lowByte (w : UInt16) : Alu.nibble (lowByte w).toNat = Alu.nibble w.toNat := by
  rw [toNat_lowByte, Alu.nibble, Alu.nibble]
  omega

theorem nibble_highPage (offset : UInt8) :
    Alu.nibble (highPage offset).toNat = Alu.nibble offset.toNat := by
  rw [highPage, toNat_word, Alu.nibble, Alu.nibble]
  omega

namespace PresetName

theorem nibble_get8 (p : PresetName) (r : Reg8) :
    Alu.nibble (p.preset.regs.get8 r).toNat = 0 ↔ r = .f := by
  cases p <;> cases r <;> decide

theorem nibble_get16 (p : PresetName) (rr : Reg16) :
    Alu.nibble (p.preset.regs.get16 rr).toNat = 0 ↔ rr = .af := by
  cases p <;> cases rr <;> decide

theorem nibble_read8 (p : PresetName) (address : UInt16) :
    Alu.nibble (p.preset.read8 address).toNat = Alu.nibble address.toNat := by
  have hfill : p.preset.read8 address = lowByte address := by cases p <;> rfl
  rw [hfill, nibble_lowByte]

end PresetName

/-! ## Effects -/

namespace Instruction

open Queue

theorem flagsOnly_reading (bytes : List UInt8) : Every Write.FlagsOnly (reading bytes) := by
  induction bytes using List.reverseRecOn with
  | nil => exact every_nil
  | append_singleton bytes b ih =>
      rw [reading_concat, every_append]
      exact ⟨ih, by simp⟩

theorem flagsOnly_aluEffect (p : Preset) (lead : UInt8) (op : AluOp) (source : Source) :
    Every Write.FlagsOnly (aluEffect p lead op source) := by
  rcases source with (r | rr) | v <;> cases op <;> simp [aluEffect, busRead, restoreBuses]

theorem flagsOnly_step8Effect_iff (lead : UInt8) (s : Step) (place : Place) :
    Every Write.FlagsOnly (step8Effect PresetName.default.preset lead s place) ↔
      place ≠ .register .f := by
  cases place with
  | register r =>
      have hstep : (r = .f → Alu.nibble (Alu.byteValue s.alu
          (PresetName.default.preset.regs.get8 r) 1).toNat = 0) ↔ r ≠ .f := by
        apply imp_congr_right
        rintro rfl
        cases s <;> decide
      simpa [step8Effect, Place.read] using hstep
  | pointer rr =>
      simp [step8Effect, busRead, restoreBuses]

theorem flagsOnly_adjustEffect (p : Preset) (a : Adjustment) :
    Every Write.FlagsOnly (adjustEffect p a) := by
  cases a <;> simp [adjustEffect]

theorem nibble_clearBit (bit : UInt8) :
    Alu.nibble (PresetName.default.preset.regs.get8 .f &&& ~~~Alu.bitMask bit).toNat = 0 := by
  rw [UInt8.toNat_and]
  exact nibble_and _ (by decide)

/-- A bit is set in the lower half exactly if its number says so. -/
theorem nibble_setBit {bit : UInt8} (hbit : bit.toNat < 8) :
    Alu.nibble (PresetName.default.preset.regs.get8 .f ||| Alu.bitMask bit).toNat = 0 ↔
      4 ≤ bit := by
  have hall : ∀ n : Fin 8, Alu.nibble (PresetName.default.preset.regs.get8 .f |||
      Alu.bitMask (UInt8.ofNat n)).toNat = 0 ↔ 4 ≤ UInt8.ofNat n := by
    decide
  have hset := hall ⟨bit.toNat, hbit⟩
  rwa [UInt8.ofNat_toNat] at hset

theorem flagsOnly_bitwiseEffect_iff (op : BitOp) {bit : UInt8} (hbit : bit.toNat < 8)
    (place : Place) :
    Every Write.FlagsOnly (bitwiseEffect PresetName.default.preset op bit place) ↔
      (op = .set → place = .register .f → 4 ≤ bit) := by
  cases place with
  | pointer rr =>
      cases op <;> simp [bitwiseEffect, Place.access, Place.store]
  | register r =>
      cases op with
      | bit => simp [bitwiseEffect, Place.access]
      | res =>
          have hres : r = .f → Alu.nibble (PresetName.default.preset.regs.get8 r &&&
              ~~~Alu.bitMask bit).toNat = 0 := by
            rintro rfl
            exact nibble_clearBit bit
          simpa [bitwiseEffect, Place.access, Place.store, Place.read] using hres
      | set =>
          have hset : (r = .f → Alu.nibble (PresetName.default.preset.regs.get8 r |||
              Alu.bitMask bit).toNat = 0) ↔ (r = .f → 4 ≤ bit) := by
            apply imp_congr_right
            rintro rfl
            exact nibble_setBit hbit
          simpa [bitwiseEffect, Place.access, Place.store, Place.read] using hset

theorem flagsOnly_rotateEffect_iff (op : RotateOp) (place : Place) :
    Every Write.FlagsOnly (rotateEffect PresetName.default.preset op place) ↔
      (place = .register .f → op = .sla) := by
  cases place with
  | pointer rr =>
      simp [rotateEffect, Place.access, Place.store]
  | register r =>
      have hrotate : (r = .f → Alu.nibble (Alu.rotate op (PresetName.default.preset.regs.get8 r)
          PresetName.default.preset.regs.f.c).1.toNat = 0) ↔ (r = .f → op = .sla) := by
        apply imp_congr_right
        rintro rfl
        cases op <;> decide
      simpa [rotateEffect, Place.access, Place.store, Place.read] using hrotate

/-- Neither step of `AF` leaves its lower four bits zero. -/
theorem nibble_step_iff (p : PresetName) (s : Step) (rr : Reg16) :
    (rr = .af → Alu.nibble (s.word (p.preset.regs.get16 rr)).toNat = 0) ↔ rr ≠ .af := by
  apply imp_congr_right
  rintro rfl
  cases p <;> cases s <;> decide

theorem flagsOnly_stepPointer_iff (p : PresetName) (rr : Reg16) (step : Option Step) :
    Every Write.FlagsOnly (stepPointer p.preset rr step) ↔
      (PostLoad.ofStep step = .increment ∨ PostLoad.ofStep step = .decrement → rr ≠ .af) := by
  rcases step with _ | s
  · simp [stepPointer, PostLoad.ofStep]
  · have hsteps : PostLoad.ofStep (some s) = .increment ∨
        PostLoad.ofStep (some s) = .decrement := by
      cases s <;> simp [PostLoad.ofStep]
    simpa [stepPointer, hsteps] using nibble_step_iff p s rr

/-- A pop masks what it puts into the register. -/
theorem nibble_poppedWord (p : Preset) : Alu.nibble (poppedWord p .af).toNat = 0 := by
  rw [poppedWord, UInt16.toNat_and, Nat.and_comm]
  exact nibble_and _ rfl

theorem flagsOnly_loadEffect_iff (p : PresetName) (l : Load) :
    Every Write.FlagsOnly (loadEffect p.preset l) ↔
      Operation.LoadFlagsOnly l.dst l.src l.postLoad := by
  -- the steps of a pointer and the mask of a pop are looked at apart from what is loaded
  cases l
  case fromPointer dst ptr step =>
    rw [loadEffect, every_append, flagsOnly_stepPointer_iff]
    simp [PresetName.nibble_read8, PresetName.nibble_get16, Operation.LoadFlagsOnly,
      Operand.LowClear, Operand.reg8, Operand.reg16, Load.dst, Load.src, Load.postLoad, and_comm]
  case toPointer ptr src step =>
    rw [loadEffect, List.cons_append, every_write, every_append, flagsOnly_stepPointer_iff]
    simp [Operation.LoadFlagsOnly, Operand.reg8, Operand.reg16, Load.dst, Load.src, Load.postLoad]
  case pop dst =>
    have hpop : dst = .af → Alu.nibble (poppedWord p.preset dst).toNat = 0 := by
      rintro rfl
      exact nibble_poppedWord _
    simpa [loadEffect, popWord, Operation.LoadFlagsOnly, Operand.reg8, Operand.reg16, Load.dst,
      Load.src, Load.postLoad] using hpop
  all_goals
    simp [loadEffect, pushWord, hlFromStackEffect, PresetName.nibble_get8,
      PresetName.nibble_read8, nibble_highPage, Operation.LoadFlagsOnly, Operand.LowClear,
      Operand.reg8, Operand.reg16, Load.dst, Load.src, Load.postLoad]

theorem flagsOnly_stepPair_iff (p : PresetName) (s : Step) (rr : Reg16) :
    Every Write.FlagsOnly [.write (.register16 rr (s.word (p.preset.regs.get16 rr))), .halt] ↔
      rr ≠ .af := by
  simpa using nibble_step_iff p s rr

theorem flagsOnly_addHlEffect (p : Preset) (rr : Reg16) :
    Every Write.FlagsOnly (addHlEffect p rr) := by
  simp [addHlEffect]

theorem flagsOnly_addSpEffect (p : Preset) (d : Int8) :
    Every Write.FlagsOnly (addSpEffect p d) := by
  simp [addSpEffect]

theorem flagsOnly_rotateAEffect (p : Preset) (op : RotateOp) :
    Every Write.FlagsOnly (rotateAEffect p op) := by
  simp [rotateAEffect]

theorem flagsOnly_controlEffect (op : ControlOp) :
    Every Write.FlagsOnly (controlEffect op) := by
  cases op <;> simp [controlEffect]

theorem flagsOnly_transferEffect (p : Preset) (length : Nat) (t : Transfer) :
    Every Write.FlagsOnly (transferEffect p length t) := by
  cases t <;> simp [transferEffect, pushWord, popWord, jumpTo]

/-! ## Traces -/

variable {e : Encoding} {op : Operation} {i : Instruction}

theorem flagsOnly_opening (p : PresetName) (e : Encoding) (i : Instruction) :
    Every Write.FlagsOnly (i.opening p.preset e) := by
  rw [opening_eq, every_append]
  exact ⟨flagsOnly_reading _, every_delay i⟩

theorem flagsOnly_traces_transfer (e : Encoding) (t : Transfer) :
    ∀ u ∈ (transfer t).traces e, Every Write.FlagsOnly u.queue := by
  intro u hu
  rw [queue_of_mem_traces hu, every_append, every_append]
  refine ⟨flagsOnly_reading _, every_delay _, ?_⟩
  split
  · exact every_nil
  · exact flagsOnly_transferEffect _ _ t

/-- Reading the stream does no harm, so the effect decides. A branch does none on either
side. -/
theorem flagsOnly_traces_iff (e : Encoding) (i : Instruction) :
    (∀ t ∈ i.traces e, Every Write.FlagsOnly t.queue) ↔
      Every Write.FlagsOnly (i.effect i.preset.preset e) := by
  cases i with
  | transfer t => exact iff_of_true (flagsOnly_traces_transfer e t) (flagsOnly_transferEffect _ _ t)
  | _ => simp [traces, condition?, execution, flagsOnly_opening]

theorem bit_lt_of_selectedBit? {op : BitOp} {payload : UInt8} {n : Nat}
    (h : selectedBit? op payload = some n) : n < 8 := by
  rw [selectedBit?] at h
  split at h
  case isTrue hrange => exact Option.some.inj h ▸ hrange.2
  case isFalse => cases h

theorem operand_eq_flags_iff {p : Place} : p.operand = Operand.reg8 .f ↔ p = .register .f := by
  cases p <;> simp [Place.operand, Operand.reg8]

/-- **The effect of an operation keeps the lower bits zero exactly if its operands are
among those described.** -/
theorem Denotes.flagsOnly_effect_iff (h : Denotes e op i) :
    Every Write.FlagsOnly (i.effect i.preset.preset e) ↔ op.FlagsOnly := by
  cases h with
  | alu hop hlhs s =>
      refine iff_of_true (flagsOnly_aluEffect _ _ _ _) fun _ => ?_
      constructor <;> rintro rfl <;> cases hop
  | @step8 op s hop p rhs =>
      have hone : op = .inc ∨ op = .dec := by cases op <;> cases hop <;> simp
      refine (flagsOnly_step8Effect_iff _ _ _).trans ?_
      rw [Operation.FlagsOnly, Option.some.injEq, operand_eq_flags_iff]
      tauto
  | adjust hop lhs rhs =>
      refine iff_of_true (flagsOnly_adjustEffect _ _) fun _ => ?_
      constructor <;> rintro rfl <;> cases hop
  | increment rr | decrement rr =>
      refine (flagsOnly_stepPair_iff _ _ _).trans ?_
      simp [Operation.FlagsOnly, Operand.reg16]
  | addHl rr =>
      exact iff_of_true (flagsOnly_addHlEffect _ _) (by simp [Operation.FlagsOnly, Operand.reg16])
  | addSp d =>
      exact iff_of_true (flagsOnly_addSpEffect _ _) (by simp [Operation.FlagsOnly, Operand.reg16])
  | bitwise hpayload hbit p =>
      refine (flagsOnly_bitwiseEffect_iff _ (bit_lt_of_selectedBit? hbit) _).trans ?_
      simp [Operation.FlagsOnly, operand_eq_flags_iff]
  | load l hl => exact flagsOnly_loadEffect_iff l.preset l
  | rotate op hpayload p =>
      refine (flagsOnly_rotateEffect_iff _ _).trans ?_
      rw [Operation.FlagsOnly, Option.some.injEq, operand_eq_flags_iff]
  | rotateA hpage hop h =>
      refine iff_of_true (flagsOnly_rotateAEffect _ _) ?_
      rintro rfl
      rcases h with h | h <;> cases h
  | control op => exact iff_of_true (flagsOnly_controlEffect _) trivial
  | _ =>
      rw [effect]
      exact iff_of_true (flagsOnly_transferEffect _ _ _) trivial

end Instruction

/-! ## Descriptors -/

namespace Descriptor

/-- **The flag register.** The traces of an accepted descriptor keep the lower four
bits of the register zero exactly if its operation is among those described. -/
theorem flagsOnly_iff_of_assemble {d : Descriptor} {ts : List Trace} (h : d.assemble = .ok ts) :
    (∀ t ∈ ts, t.queue.Every Write.FlagsOnly) ↔ d.operation.FlagsOnly := by
  obtain ⟨e, i, -, hdenotes, -, -, rfl⟩ := assemble_eq_ok_iff_denotes.mp h
  exact (Instruction.flagsOnly_traces_iff e i).trans hdenotes.flagsOnly_effect_iff

/-- `POP AF`. -/
def popSample : Descriptor :=
  ⟨0xF1, 1, 3, .load (some (.reg16 .af)) (some ⟨.register16 .sp, true⟩) .none⟩

theorem assemble_popSample :
    popSample.assemble = .ok ((Instruction.load (.pop .af)).traces ⟨0xF1, []⟩) :=
  assemble_of_denotes rfl (.load (.pop .af) (by simp [Load.Legal])) rfl rfl

/-- `LD AF` of a word whose lower four bits are not zero. -/
def pairLoadSample : Descriptor :=
  ⟨0x013412, 3, 3, .load (some (.reg16 .af)) (some ⟨.imm16 0x1234, false⟩) .none⟩

theorem assemble_pairLoadSample : pairLoadSample.assemble =
    .ok ((Instruction.load (.pairImmediate .af 0x1234)).traces ⟨0x01, [0x34, 0x12]⟩) :=
  assemble_of_denotes rfl (.load (.pairImmediate .af 0x1234) trivial) rfl rfl

/-- A pop keeps the lower bits zero, a load of a word need not. -/
theorem flagsOnly_iff_of_assemble_pop :
    (∃ t, popSample.assemble = .ok [t] ∧ t.queue.Every Write.FlagsOnly) ∧
    ∃ t, pairLoadSample.assemble = .ok [t] ∧ ¬ t.queue.Every Write.FlagsOnly := by
  have hpop := (flagsOnly_iff_of_assemble assemble_popSample).mpr
    ⟨by simp [Operand.reg8, Operand.reg16], fun _ => Or.inl rfl, by decide⟩
  have hload := (flagsOnly_iff_of_assemble assemble_pairLoadSample).not.mpr
    fun h => absurd (h.2.1 rfl) (by simp [Operand.LowClear, Alu.nibble])
  exact ⟨⟨_, assemble_popSample, hpop _ (List.mem_cons_self ..)⟩,
    _, assemble_pairLoadSample, fun h => hload (List.forall_mem_singleton.mpr h)⟩

/-- The word is written as it stands. -/
theorem pairLoad_fills_low_bits :
    ∃ t, pairLoadSample.assemble = .ok [t] ∧ ∃ w ∈ t.queue.writes,
      w.target = .register16 .af ∧ Alu.nibble w.value.toNat = 4 :=
  ⟨_, assemble_pairLoadSample, .register16 .af 0x1234, by decide, rfl, rfl⟩

end Descriptor

end GoldenTrace
