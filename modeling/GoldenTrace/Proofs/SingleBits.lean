import GoldenTrace.Proofs.Arithmetic8

/-!
# Single bits

Every operation on single bits has a block of its own on the second opcode page. A
descriptor finds the bit by its distance from the start of the block; that comes to the
fields of the byte, the operation in its top two bits and the number of the bit in the
three below. What is accepted tests or changes this one bit of its operand.
-/

namespace GoldenTrace

/-! ## Blocks -/

namespace BitOp

/-- The top two bits of the bytes in an operation's block. -/
def field : BitOp → BitVec 2
  | bit => 0b01
  | res => 0b10
  | set => 0b11

/-- The byte behind the page byte has the operation in its top two bits, and in the three
below them the number of the bit. -/
structure Selects (op : BitOp) (number second : UInt8) : Prop where
  operation : second.toBitVec.extractLsb' 6 2 = op.field
  number : (second.toBitVec.extractLsb' 3 3).toNat = number.toNat

/-- There are eight bits to select. -/
theorem Selects.number_lt {op : BitOp} {number second : UInt8} (h : op.Selects number second) :
    number.toNat < 8 := by
  rw [← h.number]
  exact (second.toBitVec.extractLsb' 3 3).isLt

theorem eq_field_iff {op : BitOp} {second : UInt8} :
    second.toBitVec.extractLsb' 6 2 = op.field ↔
      op.blockBase ≤ second.toNat ∧ second.toNat < op.blockBase + 64 := by
  have hlt := second.toNat_lt
  have hfield : (second.toBitVec.extractLsb' 6 2).toNat = second.toNat / 64 % 4 := by
    rw [BitVec.extractLsb'_toNat, UInt8.toNat_toBitVec, Nat.shiftRight_eq_div_pow]
  rw [← BitVec.toNat_inj, hfield]
  cases op with
  | bit =>
      show _ = 1 ↔ 64 ≤ _ ∧ _ < 64 + 64
      omega
  | res =>
      show _ = 2 ↔ 128 ≤ _ ∧ _ < 128 + 64
      omega
  | set =>
      show _ = 3 ↔ 192 ≤ _ ∧ _ < 192 + 64
      omega

/-- The start of a block has the number zero. -/
theorem blockBase_mod (op : BitOp) : op.blockBase % 64 = 0 := by
  cases op <;> rfl

/-- The distance from the start of the block selects the bit that the fields name. -/
theorem selectedBit?_eq_some_iff {op : BitOp} {number second : UInt8} :
    Instruction.selectedBit? op second = some number.toNat ↔ op.Selects number second := by
  have hnumber : (second.toBitVec.extractLsb' 3 3).toNat = second.toNat / 8 % 8 := by
    rw [BitVec.extractLsb'_toNat, UInt8.toNat_toBitVec, Nat.shiftRight_eq_div_pow]
  have hbase := op.blockBase_mod
  rw [Instruction.selectedBit?]
  constructor
  · intro h
    split at h
    case isTrue hblock =>
      have hselected := Option.some.inj h
      exact ⟨eq_field_iff.mpr (by omega), by omega⟩
    case isFalse => cases h
  · rintro ⟨hoperation, hselected⟩
    have hblock := eq_field_iff.mp hoperation
    rw [if_pos (by omega), Option.some.injEq]
    omega

end BitOp

/-! ## Bytes but for one bit -/

/-- `w` has bit `k` as given, and all others as `v` has them. -/
def WithBit (k : Nat) (b : Bool) (v w : UInt8) : Prop :=
  ∀ j, w.toNat.testBit j = if j = k then b else v.toNat.testBit j

namespace Alu

section

variable {bit : UInt8}

theorem toNat_bitMask (h : bit.toNat < 8) : (bitMask bit).toNat = 2 ^ bit.toNat := by
  have hpow : 2 ^ bit.toNat < 2 ^ 8 := Nat.pow_lt_pow_right (by decide) h
  rw [bitMask, UInt8.toNat_shiftLeft, Nat.mod_eq_of_lt h]
  show 1 <<< bit.toNat % 2 ^ 8 = _
  rw [Nat.one_shiftLeft, Nat.mod_eq_of_lt hpow]

theorem withBit_or (h : bit.toNat < 8) (v : UInt8) :
    WithBit bit.toNat true v (v ||| bitMask bit) := by
  intro j
  rw [UInt8.toNat_or, toNat_bitMask h, Nat.testBit_or, Nat.testBit_two_pow]
  by_cases hj : j = bit.toNat
  · rw [if_pos hj, decide_eq_true hj.symm, Bool.or_true]
  · rw [if_neg hj, decide_eq_false (Ne.symm hj), Bool.or_false]

theorem withBit_and_not (h : bit.toNat < 8) (v : UInt8) :
    WithBit bit.toNat false v (v &&& ~~~bitMask bit) := by
  intro j
  have hnot : (~~~bitMask bit).toNat.testBit j = (decide (j < 8) && !decide (bit.toNat = j)) := by
    rw [← Nat.testBit_two_pow, ← toNat_bitMask h]
    exact BitVec.getLsbD_not
  have hbyte : v.toNat.testBit j = true → j < 8 := by
    intro hj
    exact (Nat.pow_lt_pow_iff_right (by decide)).mp (Nat.lt_of_le_of_lt
      (Nat.ge_two_pow_of_testBit hj) v.toNat_lt)
  -- above the byte, neither side has a bit
  rw [UInt8.toNat_and, Nat.testBit_and, hnot]
  by_cases hj : j = bit.toNat
  · rw [if_pos hj, decide_eq_true hj.symm, Bool.not_true, Bool.and_false, Bool.and_false]
  · rw [if_neg hj, decide_eq_false (Ne.symm hj), Bool.not_false, Bool.and_true]
    cases hv : v.toNat.testBit j with
    | false => rfl
    | true => rw [decide_eq_true (hbyte hv), Bool.true_and]

end

end Alu

/-! ## Operations on a bit -/

/-- The end of the cycle that an operand in memory takes to read or to write. -/
def Operand.access (o : Operand) : Queue :=
  if o.pointer then [.halt] else []

/-- What an operation does to bit `k` of the byte `v`, which `put` replaces. A test
writes nothing but three flags, the zero flag with the complement of the bit. -/
inductive BitOp.Performs (k : Nat) (v : UInt8) (put : UInt8 → Write) (access : Queue) :
    BitOp → Queue → Prop where
  | tests : Performs k v put access .bit
      (access ++ [.write (.flag .z (Write.bit !v.toNat.testBit k)), .write (.flag .n 0),
        .write (.flag .h 1)])
  | resets {w : UInt8} (h : WithBit k false v w) :
      Performs k v put access .res (access ++ .write (put w) :: access)
  | sets {w : UInt8} (h : WithBit k true v w) :
      Performs k v put access .set (access ++ .write (put w) :: access)

theorem Place.access_operand (place : Place) : place.operand.access = place.access := by
  cases place <;> rfl

theorem Instruction.performs_bitwiseEffect (p : Preset) (op : BitOp) {bit : UInt8}
    (h : bit.toNat < 8) (place : Place) :
    op.Performs bit.toNat (place.read p) (fun v => place.store p v) place.operand.access
      (bitwiseEffect p op bit place) := by
  rw [place.access_operand]
  cases op with
  | bit =>
      rw [bitwiseEffect, Alu.bitTest, Alu.and_mask (Alu.toNat_bitMask h)]
      exact .tests
  | res =>
      rw [bitwiseEffect, List.append_assoc]
      exact .resets (Alu.withBit_and_not h _)
  | set =>
      rw [bitwiseEffect, List.append_assoc]
      exact .sets (Alu.withBit_or h _)

/-- Every way to miss the declared bit is a contradiction. -/
theorem Instruction.ofBitwise_of_not_selects {e : Encoding} {op : BitOp} {number : UInt8}
    (h : ∀ second, e.payload? = some second → ¬ op.Selects number second) (o : Operand) :
    ∃ defect, ofBitwise e op (some number) (some o) = .error (.malformed defect) := by
  simp only [ofBitwise, require, bind, Except.bind]
  split
  case h_1 => exact ⟨.noPayload, rfl⟩
  case h_2 second hpayload =>
    split
    case h_1 => exact ⟨.outsideBlock op second, rfl⟩
    case h_2 selected hselected =>
      have hne : selected ≠ number.toNat := by
        rintro rfl
        exact h second hpayload (BitOp.selectedBit?_eq_some_iff.mp hselected)
      exact ⟨.bitNumber selected number, if_pos hne⟩

/-! ## Descriptors -/

namespace Descriptor

/-- What becomes of a descriptor of an operation on the bit `number` of the operand `o`. -/
structure SelectsBit (d : Descriptor) (op : BitOp) (number : UInt8) (o : Operand) : Prop where
  /-- It is accepted if its bytes are on the second page and select this bit. -/
  accepted : (∃ ts, d.assemble = .ok ts) ↔
    ∃ second rest, d.bytes? = some (pageByte :: second :: rest) ∧ op.Selects number second
  /-- It is malformed otherwise. -/
  malformed : (∀ ts, d.assemble ≠ .ok ts) → ∃ defect, d.assemble = .error (.malformed defect)
  /-- The one trace of what is accepted reads two bytes, and then performs the operation. -/
  performs : ∀ ts, d.assemble = .ok ts → ∃ second rest t v put q,
    d.bytes? = some (pageByte :: second :: rest) ∧ ts = [t] ∧ o.Holds t.preset.preset v put ∧
      t.queue = Queue.reading [pageByte, second] ++ q ∧
      op.Performs number.toNat v put o.access q

section

variable {d : Descriptor} {op : BitOp} {number : UInt8} {place : Place}

theorem assemble_of_selects (hop : d.operation = .bitwise op (some number) (some place.operand))
    (hcycles : d.operation.machineCycles d.effectiveOpcode.onPage = some d.duration.toNat)
    {second : UInt8} {rest : List UInt8} (hbytes : d.bytes? = some (pageByte :: second :: rest))
    (hselects : op.Selects number second) :
    d.assemble = .ok ((Instruction.bitwise op number place).traces ⟨pageByte, second :: rest⟩) := by
  have he := encoding_of_page hbytes
  have hdenotes : Instruction.Denotes ⟨pageByte, second :: rest⟩ d.operation
      (.bitwise op number place) :=
    hop ▸ .bitwise rfl (BitOp.selectedBit?_eq_some_iff.mpr hselects) place
  rw [← payload?_isSome_of_encoding he, hdenotes.machineCycles_eq, Option.some.injEq] at hcycles
  exact assemble_of_denotes he hdenotes rfl hcycles

theorem malformed_of_not_selects
    (hop : d.operation = .bitwise op (some number) (some place.operand))
    (h : ∀ second rest, d.bytes? = some (pageByte :: second :: rest) →
      ¬ op.Selects number second) :
    ∃ defect, d.assemble = .error (.malformed defect) := by
  cases he : d.encoding with
  | error reason =>
      rw [assemble, stream, he]
      exact ⟨.encoding reason, rfl⟩
  | ok e =>
      have hpayload : ∀ second, e.payload? = some second → ¬ op.Selects number second := by
        intro second hsecond
        obtain ⟨rest, rfl⟩ := Encoding.payload?_eq_some_iff.mp hsecond
        exact h second rest (bytes_of_encoding he).1
      obtain ⟨defect, hdefect⟩ := Instruction.ofBitwise_of_not_selects hpayload place.operand
      refine ⟨defect, assemble_of_refusal he ?_⟩
      rw [hop]
      exact hdefect

end

/-- **Single bits.** With its duration in the table, a descriptor of an operation on a bit
of a register, or of the memory a pair points at, is accepted exactly if its bytes select
this bit, and then the operation is performed on this bit alone. -/
theorem selectsBit_of_cycles {d : Descriptor} {op : BitOp} {number : UInt8} {place : Place}
    (hop : d.operation = .bitwise op (some number) (some place.operand))
    (hcycles : d.operation.machineCycles d.effectiveOpcode.onPage = some d.duration.toNat) :
    d.SelectsBit op number place.operand := by
  have hselects : ∀ ts, d.assemble = .ok ts →
      ∃ second rest, d.bytes? = some (pageByte :: second :: rest) ∧ op.Selects number second := by
    intro ts hts
    by_contra hnone
    obtain ⟨defect, hdefect⟩ := malformed_of_not_selects hop fun second rest hbytes hselects =>
      hnone ⟨second, rest, hbytes, hselects⟩
    cases hts.symm.trans hdefect
  refine ⟨?accepted, ?malformed, ?performs⟩
  case accepted =>
    constructor
    · rintro ⟨ts, hts⟩
      exact hselects ts hts
    · rintro ⟨second, rest, hbytes, hselected⟩
      exact ⟨_, assemble_of_selects hop hcycles hbytes hselected⟩
  case malformed =>
    intro hrefused
    refine malformed_of_not_selects hop ?_
    intro second rest hbytes hselected
    exact hrefused _ (assemble_of_selects hop hcycles hbytes hselected)
  case performs =>
    intro ts hts
    obtain ⟨second, rest, hbytes, hselected⟩ := hselects ts hts
    have htraces := hts.symm.trans (assemble_of_selects hop hcycles hbytes hselected)
    obtain rfl := Except.ok.inj htraces
    exact ⟨second, rest, _, _, _, _, hbytes, Instruction.traces_of_no_condition rfl rfl,
      place.holds_operand _, rfl, Instruction.performs_bitwiseEffect _ op hselected.number_lt place⟩

/-- `RES 1,(HL)`. -/
def resetBitSample : Descriptor :=
  ⟨0xCB8E, 2, 4, .bitwise .res (some 1) (some ⟨.register16 .hl, true⟩)⟩

/-- A test of bit 3 of `A` with the bytes of a test of bit 0. -/
def otherBitSample : Descriptor :=
  ⟨0xCB47, 2, 2, .bitwise .bit (some 3) (some (.reg8 .a))⟩

/-- The byte at `0x0102` is `0x02`, of which bit 1 is cleared between two cycles of memory.
The other descriptor contradicts its bytes. -/
theorem selectsBit_of_cycles_memory :
    (resetBitSample.SelectsBit .res 1 ⟨.register16 .hl, true⟩ ∧
      ∃ t, resetBitSample.assemble = .ok [t] ∧
        t.queue = Queue.reading [0xCB, 0x8E] ++ [.halt, .write (.memory 0x0102 0x00), .halt]) ∧
    otherBitSample.SelectsBit .bit 3 (.reg8 .a) ∧
      otherBitSample.assemble = .error (.malformed (.bitNumber 0 3)) := by
  refine ⟨⟨@selectsBit_of_cycles _ _ _ (.pointer .hl) rfl rfl, ?_⟩,
    @selectsBit_of_cycles _ _ _ (.register .a) rfl rfl, ?_⟩
  · exact ⟨_, rfl, by decide⟩
  · rfl

end Descriptor

end GoldenTrace
