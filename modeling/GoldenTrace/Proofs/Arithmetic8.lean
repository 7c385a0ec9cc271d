import GoldenTrace.Proofs.Alu.Adder
import GoldenTrace.Proofs.FlagWrites
import Mathlib.Data.List.Induction

/-!
# Arithmetic on bytes

What an operation on bytes computes is said here in nine bits: the result is the lower
eight, and the carry is the ninth. Traces store this result and nothing else, report its
flags, and leave the buses as they found them.
-/

namespace GoldenTrace

/-! ## Operations in nine bits -/

namespace ArithOp

/-- The nine bits that an operation forms, given the carry flag. Adjustments form none. -/
def wide? (op : ArithOp) (carry : Bool) (x y : UInt8) : Option (BitVec 9) :=
  let a := BitVec.ofNat 9 x.toNat
  let b := BitVec.ofNat 9 y.toNat
  let c := BitVec.ofNat 9 carry.toNat
  match op with
  | add | inc => some (a + b)
  | adc => some (a + b + c)
  | sub | cp | dec => some (a - b)
  | sbc => some (a - b - c)
  | and => some (a &&& b)
  | or => some (a ||| b)
  | xor => some (a ^^^ b)
  | daa | cpl | scf | ccf => none

/-- The half carry. It is fixed for operations bit by bit. -/
def halfCarry (op : ArithOp) (x y result : UInt8) : Bool :=
  match op with
  | and => true
  | or | xor => false
  | _ => (x ^^^ y ^^^ result).toNat.testBit 4

/-- The carry, which steps leave alone. -/
def carry? (op : ArithOp) (wide : BitVec 9) : Option Bool :=
  match op with
  | inc | dec => none
  | and | or | xor => some false
  | _ => some (wide.getLsbD 8)

/-- What an operation reports to the flags, from the highest down. -/
def report (op : ArithOp) (x y : UInt8) (wide : BitVec 9) : List (Flag × UInt8) :=
  let result := UInt8.ofNat wide.toNat
  [(.z, Write.bit (result == 0)), (.n, Write.bit (op ∈ [sub, sbc, cp, dec])),
    (.h, Write.bit (op.halfCarry x y result))] ++
    (op.carry? wide).toList.map fun c => (.c, Write.bit c)

end ArithOp

namespace Alu

/-- The nine bits that the arithmetic unit forms, with the carry set. -/
def nineBits (op : AluOp) (x y : UInt8) : BitVec 9 :=
  op.onBits (BitVec.ofNat 9 x.toNat) (BitVec.ofNat 9 y.toNat) (BitVec.ofNat 9 1)

theorem toNat_nineBits {op : AluOp} (hop : op ≠ .cp) (x y : UInt8) :
    (nineBits op x y).toNat = value op x.toNat y.toNat (2 ^ 9) :=
  (value_eq_onBits hop 9 x.toNat y.toNat).symm

theorem byteValue_eq {op : AluOp} (hop : op ≠ .cp) (x y : UInt8) :
    byteValue op x y = UInt8.ofNat (nineBits op x y).toNat := by
  have hmod : value op x.toNat y.toNat (2 ^ 9) % 2 ^ 8 = value op x.toNat y.toNat byteModulus :=
    value_emod (by decide) (by decide)
  rw [toNat_nineBits hop, byteValue, ← hmod, UInt8.ofNat_mod_size]

theorem byteFlags_of_arithmetic {op : AluOp} (hop : op ∈ [AluOp.add, .adc, .sub, .sbc])
    (x y : UInt8) :
    byteFlags op x y =
      .all (byteValue op x y == 0) op.subtracts ((x ^^^ y ^^^ byteValue op x y).toNat.testBit 4)
        ((nineBits op x y).getLsbD 8) := by
  have hne : op ≠ .cp := by
    rintro rfl
    exact absurd hop (by decide)
  have hflags := flags_of_arithmetic x.toNat_lt y.toNat_lt (by decide) hop
  rw [← toNat_nineBits hne, ← toNat_byteValue, toNat_beq_zero] at hflags
  rw [UInt8.toNat_xor, UInt8.toNat_xor]
  exact hflags

theorem byteFlags_of_logic {op : AluOp} (hop : op ∈ [AluOp.and, .or, .xor]) (x y : UInt8) :
    byteFlags op x y = .all (byteValue op x y == 0) false (op = .and) false := by
  have hflags := flags_of_logic x.toNat_lt y.toNat_lt hop
  rw [← toNat_byteValue, toNat_beq_zero] at hflags
  exact hflags

end Alu

namespace ArithOp

theorem wide?_of_role_alu {op : ArithOp} {a : AluOp} (h : op.role = .alu a) (x y : UInt8) :
    op.wide? true x y = some (Alu.nineBits a x y) := by
  cases op <;> cases h <;> rfl

theorem wide?_of_role_step {op : ArithOp} {s : Step} (h : op.role = .step s) (carry : Bool)
    (x y : UInt8) : op.wide? carry x y = some (Alu.nineBits s.alu x y) := by
  cases op <;> cases h <;> rfl

/-- What is reported in nine bits are the flags of the arithmetic unit. A comparison
reports those of a subtraction. -/
theorem report_of_role_alu {op : ArithOp} {a : AluOp} (h : op.role = .alu a) (x y : UInt8) :
    op.report x y (Alu.nineBits a x y) = (Alu.byteFlags a x y).flagWrites := by
  cases op with
  | add | adc | sub | sbc =>
      cases h
      rw [Alu.byteFlags_of_arithmetic (by decide), Alu.byteValue_eq (by decide)]
      rfl
  | cp =>
      cases h
      have hflags : Alu.byteFlags .cp x y = Alu.byteFlags .sub x y := rfl
      rw [hflags, Alu.byteFlags_of_arithmetic (by decide), Alu.byteValue_eq (by decide)]
      rfl
  | and | or | xor =>
      cases h
      rw [Alu.byteFlags_of_logic (by decide), Alu.byteValue_eq (by decide)]
      rfl
  | inc | dec | daa | cpl | scf | ccf => cases h

theorem report_of_role_step {op : ArithOp} {s : Step} (h : op.role = .step s) (x y : UInt8) :
    op.report x y (Alu.nineBits s.alu x y) =
      (Alu.byteFlags s.alu x y).withoutCarry.flagWrites := by
  cases op with
  | inc | dec =>
      cases h
      rw [Step.alu, Alu.byteFlags_of_arithmetic (by decide), Alu.byteValue_eq (by decide)]
      rfl
  | _ => cases h

end ArithOp

/-! ## What a queue stores -/

/-- Whether a register or a byte of memory is written. -/
def Write.isStore : Write → Bool
  | register8 .. | register16 .. | memory .. => true
  | flag .. | ime _ | addressBus _ | dataBus _ | pc _ | ir _ => false

namespace Queue

/-- The registers and bytes of memory that are written, with what they get. -/
def stores (q : Queue) : List Write :=
  q.writes.filter Write.isStore

@[simp] theorem stores_nil : stores [] = [] := rfl

@[simp] theorem stores_write (w : Write) (q : Queue) :
    stores (.write w :: q) = if w.isStore then w :: stores q else stores q := by
  rw [stores, writes_write, List.filter_cons]
  rfl

@[simp] theorem stores_halt (q : Queue) : stores (.halt :: q) = stores q := rfl

@[simp] theorem stores_append (q q' : Queue) : stores (q ++ q') = stores q ++ stores q' := by
  rw [stores, writes_append, List.filter_append]
  rfl

@[simp] theorem stores_ofFlags (u : FlagUpdate) : stores (ofFlags u) = [] := by
  rw [stores, ofFlags, writes_ofWrites, List.filter_eq_nil_iff]
  intro w hw
  obtain ⟨f, b, -, rfl⟩ := FlagUpdate.mem_writes.mp hw
  exact Bool.false_ne_true

@[simp] theorem stores_reading (bytes : List UInt8) : stores (reading bytes) = [] := by
  induction bytes using List.reverseRecOn with
  | nil => rfl
  | append_singleton bytes b ih =>
      rw [reading_concat, stores_append, ih]
      rfl

@[simp] theorem flagWrites_nil : flagWrites [] = [] := rfl

@[simp] theorem flagWrites_write (w : Write) (q : Queue) :
    flagWrites (.write w :: q) = w.flag?.toList ++ flagWrites q := by
  rw [flagWrites, writes_write]
  cases hw : w.flag? <;> simp [flagWrites, hw]

@[simp] theorem flagWrites_halt (q : Queue) : flagWrites (.halt :: q) = flagWrites q := rfl

@[simp] theorem flagWrites_append (q q' : Queue) :
    flagWrites (q ++ q') = flagWrites q ++ flagWrites q' := by
  rw [flagWrites, writes_append, List.filterMap_append]
  rfl

@[simp] theorem flagWrites_ofFlags (u : FlagUpdate) : flagWrites (ofFlags u) = u.flagWrites := by
  rw [flagWrites, ofFlags, writes_ofWrites]
  rfl

@[simp] theorem flagWrites_reading (bytes : List UInt8) : flagWrites (reading bytes) = [] := by
  induction bytes using List.reverseRecOn with
  | nil => rfl
  | append_singleton bytes b ih =>
      rw [reading_concat, flagWrites_append, ih]
      rfl

end Queue

namespace Instruction

open Queue

/-- The byte that a source gives. -/
def sourceValue (p : Preset) : Source → UInt8
  | .place place => place.read p
  | .immediate v => v

section

variable (p : Preset) (lead : UInt8)

theorem stores_aluEffect (op : AluOp) (source : Source) :
    stores (aluEffect p lead op source) =
      if op = .cp then []
      else [.register8 .a (Alu.byteValue op p.regs.a (sourceValue p source))] := by
  rcases source with (r | rr) | v <;> cases op <;>
    simp [aluEffect, busRead, restoreBuses, Write.isStore, sourceValue]

theorem flagWrites_aluEffect (op : AluOp) (source : Source) :
    flagWrites (aluEffect p lead op source) =
      (Alu.byteFlags op p.regs.a (sourceValue p source)).flagWrites := by
  rcases source with (r | rr) | v <;> cases op <;>
    simp [aluEffect, busRead, restoreBuses, Write.flag?, sourceValue]

theorem stores_step8Effect (s : Step) (place : Place) :
    stores (step8Effect p lead s place) =
      [place.store p (Alu.byteValue s.alu (place.read p) 1)] := by
  cases place <;> simp [step8Effect, busRead, restoreBuses, Write.isStore, Place.store]

theorem flagWrites_step8Effect (s : Step) (place : Place) :
    flagWrites (step8Effect p lead s place) =
      (Alu.byteFlags s.alu (place.read p) 1).withoutCarry.flagWrites := by
  cases place <;> simp [step8Effect, busRead, restoreBuses, Write.flag?]

end

end Instruction

/-! ## The reference -/

/-- An operand that holds a byte: the byte in a state, and the write that puts another one
in its place. -/
inductive Operand.Holds (p : Preset) : Operand → UInt8 → (UInt8 → Write) → Prop where
  | register (r : Reg8) : Holds p (.reg8 r) (p.regs.get8 r) (.register8 r)
  | memory (rr : Reg16) :
      Holds p ⟨.register16 rr, true⟩ (p.read8 (p.regs.get16 rr)) (.memory (p.regs.get16 rr))

/-- The byte that an operand stands for in a state. -/
inductive Operand.Gives (p : Preset) : Operand → UInt8 → Prop where
  | immediate (v : UInt8) : Gives p ⟨.imm8 v, false⟩ v
  | held {o : Operand} {v : UInt8} {put : UInt8 → Write} : Holds p o v put → Gives p o v

/-- The byte a pair points at is read in a cycle of its own, behind that of the opcode. In
the end the buses are back at the opcode. -/
structure Queue.ReadsThrough (rr : Reg16) (opcode : UInt8) (p : Preset) (q : Queue) : Prop where
  reads : q.cycles[1]? =
    some [.write (.addressBus (p.regs.get16 rr)), .write (.dataBus (p.read8 (p.regs.get16 rr)))]
  restores : [.write (.addressBus (p.regs.pc + 1)), .write (.dataBus opcode)] <:+ q

namespace ArithOp

/-- A queue does what an operation on `x` and `y` should: it puts the lower eight bits of
the result where they belong, and reports to the flags. A comparison only reports. -/
structure Computes (op : ArithOp) (x y : UInt8) (wide : BitVec 9) (put : UInt8 → Write)
    (p : Preset) (q : Queue) : Prop where
  forms : op.wide? p.regs.f.c x y = some wide
  stores : q.stores = if op = .cp then [] else [put (UInt8.ofNat wide.toNat)]
  flags : q.flagWrites = op.report x y wide

/-- What an operation on bytes is to do in the state `p`. -/
structure Reference (op : ArithOp) (lhs rhs : Option Operand) (opcode : UInt8) (p : Preset)
    (q : Queue) : Prop where
  /-- Operations of the accumulator take their second operand as it is in the state. -/
  accumulator : op ∈ [add, adc, sub, sbc, and, or, xor, cp] →
    ∃ o v wide, rhs = some o ∧ o.Gives p v ∧ op.Computes p.regs.a v wide (.register8 .a) p q ∧
      ∀ rr, o = ⟨.register16 rr, true⟩ → q.ReadsThrough rr opcode p
  /-- A step goes back to where its operand came from. Memory gets it over the data bus. -/
  step : op ∈ [inc, dec] →
    ∃ o v put wide, lhs = some o ∧ o.Holds p v put ∧ op.Computes v 1 wide put p q ∧
      ∀ rr, o = ⟨.register16 rr, true⟩ → q.ReadsThrough rr opcode p ∧
        ∃ flags, q.cycles[2]? = some (.write (.dataBus (UInt8.ofNat wide.toNat)) ::
          .write (put (UInt8.ofNat wide.toNat)) :: flags)

theorem eq_cp_iff {op : ArithOp} {a : AluOp} (h : op.role = .alu a) : op = .cp ↔ a = .cp := by
  cases op <;> cases h <;> decide

theorem exists_alu_of_mem {op : ArithOp} (h : op ∈ [add, adc, sub, sbc, and, or, xor, cp]) :
    ∃ a, op.role = .alu a := by
  cases op with
  | inc | dec | daa | cpl | scf | ccf => exact absurd h (by decide)
  | _ => exact ⟨_, rfl⟩

theorem exists_step_of_mem {op : ArithOp} (h : op ∈ [inc, dec]) : ∃ s, op.role = .step s := by
  cases op with
  | inc | dec => exact ⟨_, rfl⟩
  | _ => exact absurd h (by decide)

end ArithOp

theorem Step.alu_ne_cp (s : Step) : s.alu ≠ .cp := by
  cases s <;> decide

theorem Place.holds_operand (p : Preset) (place : Place) :
    place.operand.Holds p (place.read p) (fun v => place.store p v) := by
  cases place with
  | register r => exact .register r
  | pointer rr => exact .memory rr

theorem Source.gives_operand (p : Preset) (source : Source) :
    source.operand.Gives p (Instruction.sourceValue p source) := by
  cases source with
  | place place => exact .held (place.holds_operand p)
  | immediate v => exact .immediate v

namespace Queue

theorem cycles_busRead (p : Preset) (address : UInt16) (q : Queue) :
    cycles (busRead p address ++ q) =
      [.write (.addressBus address), .write (.dataBus (p.read8 address))] :: q.cycles := by
  show cycles (.write _ :: .write _ :: .halt :: q) = _
  rw [cycles_step rfl, cycles_step rfl, cycles_halt]
  rfl

theorem cycles_reading_singleton (b : UInt8) (q : Queue) :
    cycles (reading [b] ++ q) = [.write (.pc (UInt16.ofNat 1)), .write (.ir b)] :: q.cycles := by
  show cycles (.write _ :: .write _ :: .halt :: q) = _
  rw [cycles_step rfl, cycles_step rfl, cycles_halt]
  rfl

theorem readsThrough_busRead (rr : Reg16) (opcode : UInt8) (p : Preset) (own : Queue) :
    ReadsThrough rr opcode p
      (reading [opcode] ++ (busRead p (p.regs.get16 rr) ++ (own ++ restoreBuses p opcode))) := by
  refine ⟨?reads, ?restores⟩
  case reads =>
    rw [cycles_reading_singleton, cycles_busRead]
    rfl
  case restores =>
    rw [← List.append_assoc, ← List.append_assoc]
    exact List.suffix_append _ _

end Queue

namespace Instruction

open Queue

/-- What a step does in memory, between reading the byte and the end. -/
theorem step8Effect_pointer (p : Preset) (lead : UInt8) (s : Step) (rr : Reg16) :
    step8Effect p lead s (.pointer rr) =
      busRead p (p.regs.get16 rr) ++
        ((.write (.dataBus (Alu.byteValue s.alu (p.read8 (p.regs.get16 rr)) 1)) ::
          .write (.memory (p.regs.get16 rr)
            (Alu.byteValue s.alu (p.read8 (p.regs.get16 rr)) 1)) ::
          (ofFlags (Alu.byteFlags s.alu (p.read8 (p.regs.get16 rr)) 1).withoutCarry ++ [.halt])) ++
        restoreBuses p lead) := by
  simp [step8Effect, Place.read]

theorem cycles_step8Effect (p : Preset) (lead : UInt8) (s : Step) (rr : Reg16) :
    ∃ flags, (cycles (reading [lead] ++ step8Effect p lead s (.pointer rr)))[2]? =
      some (.write (.dataBus (Alu.byteValue s.alu (p.read8 (p.regs.get16 rr)) 1)) ::
        .write (.memory (p.regs.get16 rr) (Alu.byteValue s.alu (p.read8 (p.regs.get16 rr)) 1)) ::
          flags) := by
  rw [step8Effect_pointer, cycles_reading_singleton, cycles_busRead, List.cons_append,
    cycles_step rfl, List.cons_append, cycles_step rfl]
  obtain ⟨flags, rest, hflags⟩ := List.exists_cons_of_ne_nil (cycles_ne_nil
    ((ofFlags (Alu.byteFlags s.alu (p.read8 (p.regs.get16 rr)) 1).withoutCarry ++ [.halt]) ++
      restoreBuses p lead))
  rw [hflags]
  exact ⟨flags, rfl⟩

section

variable {p : Preset} {op : ArithOp}

/-- Where the carry is set, the carry that the unit takes is that of the state. -/
theorem computes_aluEffect {a : AluOp} (hop : op.role = .alu a) (hcarry : p.regs.f.c = true)
    (bytes : List UInt8) (lead : UInt8) (source : Source) :
    op.Computes p.regs.a (sourceValue p source) (Alu.nineBits a p.regs.a (sourceValue p source))
      (.register8 .a) p (reading bytes ++ aluEffect p lead a source) := by
  refine ⟨?forms, ?stores, ?flags⟩
  case forms =>
    rw [hcarry]
    exact ArithOp.wide?_of_role_alu hop _ _
  case stores =>
    rw [stores_append, stores_reading, stores_aluEffect, List.nil_append]
    by_cases ha : a = .cp
    · rw [if_pos ha, if_pos ((ArithOp.eq_cp_iff hop).mpr ha)]
    · rw [if_neg ha, if_neg ((ArithOp.eq_cp_iff hop).not.mpr ha), Alu.byteValue_eq ha]
  case flags =>
    rw [flagWrites_append, flagWrites_reading, flagWrites_aluEffect, List.nil_append,
      ArithOp.report_of_role_alu hop]

theorem computes_step8Effect {s : Step} (hop : op.role = .step s) (bytes : List UInt8)
    (lead : UInt8) (place : Place) :
    op.Computes (place.read p) 1 (Alu.nineBits s.alu (place.read p) 1)
      (fun v => place.store p v) p (reading bytes ++ step8Effect p lead s place) := by
  have hcp : op ≠ .cp := by
    rintro rfl
    cases hop
  refine ⟨?forms, ?stores, ?flags⟩
  case forms => exact ArithOp.wide?_of_role_step hop _ _ _
  case stores =>
    rw [stores_append, stores_reading, stores_step8Effect, List.nil_append, if_neg hcp,
      Alu.byteValue_eq s.alu_ne_cp]
  case flags =>
    rw [flagWrites_append, flagWrites_reading, flagWrites_step8Effect, List.nil_append,
      ArithOp.report_of_role_step hop]

theorem reference_alu {a : AluOp} (hop : op.role = .alu a) (hcarry : p.regs.f.c = true)
    (lhs : Option Operand) (source : Source) (e : Encoding) :
    op.Reference lhs (some source.operand) e.lead p
      (reading (e.bytes.take (alu a source).streamLength) ++ aluEffect p e.lead a source) := by
  refine ⟨?accumulator, ?step⟩
  case accumulator =>
    intro _
    refine ⟨_, _, _, rfl, source.gives_operand p, computes_aluEffect hop hcarry _ _ _, ?_⟩
    intro rr hrr
    obtain rfl : source = .place (.pointer rr) := by
      rcases source with (r | rr') | v <;> cases hrr
      rfl
    exact readsThrough_busRead rr e.lead p _
  case step =>
    intro hstep
    obtain ⟨s, hs⟩ := ArithOp.exists_step_of_mem hstep
    cases hop.symm.trans hs

theorem reference_step8 {s : Step} (hop : op.role = .step s) (rhs : Option Operand)
    (place : Place) (e : Encoding) :
    op.Reference (some place.operand) rhs e.lead p
      (reading (e.bytes.take (step8 s place).streamLength) ++ step8Effect p e.lead s place) := by
  refine ⟨?accumulator, ?step⟩
  case accumulator =>
    intro halu
    obtain ⟨a, ha⟩ := ArithOp.exists_alu_of_mem halu
    cases hop.symm.trans ha
  case step =>
    intro _
    refine ⟨_, _, _, _, rfl, place.holds_operand p, computes_step8Effect hop _ _ _, ?_⟩
    intro rr hrr
    obtain rfl : place = .pointer rr := by
      cases place <;> cases hrr
      rfl
    rw [← Alu.byteValue_eq s.alu_ne_cp]
    refine ⟨?_, cycles_step8Effect p e.lead s rr⟩
    rw [step8Effect_pointer]
    exact readsThrough_busRead rr e.lead p _

theorem reference_adjust {a : Adjustment} (hop : op.role = .adjust a) (lhs rhs : Option Operand)
    (opcode : UInt8) (q : Queue) : op.Reference lhs rhs opcode p q := by
  refine ⟨?accumulator, ?step⟩
  case accumulator =>
    intro halu
    obtain ⟨b, hb⟩ := ArithOp.exists_alu_of_mem halu
    cases hop.symm.trans hb
  case step =>
    intro hstep
    obtain ⟨s, hs⟩ := ArithOp.exists_step_of_mem hstep
    cases hop.symm.trans hs

end

end Instruction

namespace Descriptor

/-- **Arithmetic on bytes follows the reference.** A descriptor of such an operation that is
accepted has one trace, and this trace does what the operation is to do in the state that
it starts from. -/
theorem reference_of_assemble {d : Descriptor} {ts : List Trace} {op : ArithOp}
    {lhs rhs : Option Operand} (h : d.assemble = .ok ts)
    (hop : d.operation = .arithmetic8 op lhs rhs) :
    ∃ opcode rest t, d.bytes? = some (opcode :: rest) ∧ ts = [t] ∧
      op.Reference lhs rhs opcode t.preset.preset t.queue := by
  obtain ⟨e, i, he, hdenotes, -, -, -, rfl⟩ := exists_stream_of_assemble h
  obtain ⟨hbytes, -, -⟩ := bytes_of_encoding he
  rw [hop] at hdenotes
  cases hdenotes with
  | alu hrole hlhs source =>
      have hcarry : PresetName.default.preset.regs.f.c = true := rfl
      have hreference := Instruction.reference_alu hrole hcarry lhs source e
      exact ⟨e.lead, e.tail, _, hbytes, Instruction.traces_of_no_condition rfl rfl, hreference⟩
  | step8 hrole place rhs =>
      exact ⟨e.lead, e.tail, _, hbytes, Instruction.traces_of_no_condition rfl rfl,
        Instruction.reference_step8 hrole rhs place e⟩
  | adjust hrole lhs rhs =>
      exact ⟨e.lead, e.tail, _, hbytes, Instruction.traces_of_no_condition rfl rfl,
        Instruction.reference_adjust hrole lhs rhs e.lead _⟩

/-- `SBC A,(HL)`. -/
def borrowSample : Descriptor :=
  ⟨0x9E, 1, 2, .arithmetic8 .sbc (some (.reg8 .a)) (some ⟨.register16 .hl, true⟩)⟩

/-- `DEC (HL)`. -/
def memoryStepSample : Descriptor :=
  ⟨0x35, 1, 3, .arithmetic8 .dec (some ⟨.register16 .hl, true⟩) none⟩

theorem assemble_borrowSample :
    borrowSample.assemble =
      .ok ((Instruction.alu .sbc (.place (.pointer .hl))).traces ⟨0x9E, []⟩) :=
  assemble_of_denotes rfl (.alu rfl (.inr rfl) (.place (.pointer .hl))) rfl rfl

theorem assemble_memoryStepSample :
    memoryStepSample.assemble =
      .ok ((Instruction.step8 .down (.pointer .hl)).traces ⟨0x35, []⟩) :=
  assemble_of_denotes rfl (.step8 rfl (.pointer .hl) none) rfl rfl

/-- The byte at `0x0102` is `0x02`, and the carry is set. -/
theorem reference_of_assemble_memory :
    (∃ opcode rest t, borrowSample.bytes? = some (opcode :: rest) ∧
      borrowSample.assemble = .ok [t] ∧
      ArithOp.sbc.Reference (some (.reg8 .a)) (some ⟨.register16 .hl, true⟩) opcode
        t.preset.preset t.queue ∧
      t.queue.stores = [.register8 .a 0x07]) ∧
    ∃ opcode rest t, memoryStepSample.bytes? = some (opcode :: rest) ∧
      memoryStepSample.assemble = .ok [t] ∧
      ArithOp.dec.Reference (some ⟨.register16 .hl, true⟩) none opcode t.preset.preset t.queue ∧
      t.queue.stores = [.memory 0x0102 0x01] := by
  constructor
  · obtain ⟨opcode, rest, t, hbytes, htraces, hreference⟩ :=
      reference_of_assemble assemble_borrowSample rfl
    refine ⟨opcode, rest, t, hbytes, htraces ▸ assemble_borrowSample, hreference, ?_⟩
    cases htraces
    decide
  · obtain ⟨opcode, rest, t, hbytes, htraces, hreference⟩ :=
      reference_of_assemble assemble_memoryStepSample rfl
    refine ⟨opcode, rest, t, hbytes, htraces ▸ assemble_memoryStepSample, hreference, ?_⟩
    cases htraces
    decide

end Descriptor

end GoldenTrace
