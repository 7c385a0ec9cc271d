import GoldenTrace.Proofs.Descriptor.Encoding
import GoldenTrace.Proofs.Instruction.Cycles

/-!
# Declared durations

A descriptor is accepted only with the duration that its instruction has on the
hardware. The durations stand in a table here, by the shapes of operands and
apart from any trace; that the traces span them is what is shown.
-/

namespace GoldenTrace

/-! ## The table -/

/-- The cycles of an operation that differs between a register and the memory
that a pair points at. -/
def Operand.byPlace (onRegister onMemory : Nat) : Operand → Option Nat
  | ⟨.register8 _, false⟩ => some onRegister
  | ⟨.register16 _, true⟩ => some onMemory
  | _ => none

namespace Operation

/-- The cycles of an accumulator operation, by its second operand. -/
def aluCycles : Operand → Option Nat
  | ⟨.imm8 _, false⟩ => some 2
  | o => o.byPlace 1 2

/-- The cycles of a load, by its destination and its source. -/
def loadCycles : Operand → Operand → Option Nat
  | ⟨.register8 _, false⟩, ⟨.register8 _, false⟩ => some 1
  | ⟨.register8 _, false⟩, ⟨.register16 _, true⟩ => some 2
  | ⟨.register16 _, true⟩, ⟨.register8 _, false⟩ => some 2
  | ⟨.register8 _, false⟩, ⟨.imm8 _, false⟩ => some 2
  | ⟨.register8 _, false⟩, ⟨.register8 _, true⟩ => some 2
  | ⟨.register8 _, true⟩, ⟨.register8 _, false⟩ => some 2
  | ⟨.register16 .sp, false⟩, ⟨.register16 .hl, false⟩ => some 2
  | ⟨.register16 _, false⟩, ⟨.imm16 _, false⟩ => some 3
  | ⟨.register16 _, true⟩, ⟨.imm8 _, false⟩ => some 3
  -- pop
  | ⟨.register16 _, false⟩, ⟨.register16 .sp, true⟩ => some 3
  | ⟨.imm8 _, true⟩, ⟨.register8 _, false⟩ => some 3
  | ⟨.register8 _, false⟩, ⟨.imm8 _, true⟩ => some 3
  | ⟨.register16 .hl, false⟩, ⟨.register16 .sp, false⟩ => some 3
  -- push
  | ⟨.register16 .sp, true⟩, ⟨.register16 _, false⟩ => some 4
  | ⟨.imm16 _, true⟩, ⟨.register8 _, false⟩ => some 4
  | ⟨.register8 _, false⟩, ⟨.imm16 _, true⟩ => some 4
  | ⟨.imm16 _, true⟩, ⟨.register16 .sp, false⟩ => some 5
  | _, _ => none

/-- The cycles of a transfer that is taken. -/
def jumpCycles : JumpKind → Option Condition → Option Operand → Option Nat
  | .jp, _, some ⟨.imm16 _, false⟩ => some 4
  | .jp, _, some ⟨.register16 .hl, _⟩ => some 1
  | .jr, _, _ => some 3
  | .call, _, _ => some 6
  | .ret, none, _ => some 4
  | .ret, some _, _ => some 5
  | .reti, _, _ => some 4
  | .rst, _, _ => some 4
  | _, _, _ => none

/-- The machine cycles of an operation, by the shape of its operands; rotations
differ by the page of their opcode. No operation that denotes an instruction is
without an entry. -/
def machineCycles (onPage : Bool) : Operation → Option Nat
  | arithmetic8 op lhs rhs =>
    match op with
    | .daa | .cpl | .scf | .ccf => some 1
    | .inc | .dec => lhs.bind (Operand.byPlace 1 3)
    | _ => rhs.bind aluCycles
  | arithmetic16 op lhs _ =>
    match op, lhs with
    | .inc, _ | .dec, _ => some 2
    | .add, some ⟨.register16 .hl, false⟩ => some 2
    | .add, some ⟨.register16 .sp, false⟩ => some 4
    | _, _ => none
  | bitwise .bit _ operand => operand.bind (Operand.byPlace 2 3)
  | bitwise _ _ operand => operand.bind (Operand.byPlace 2 4)
  | load (some dst) (some src) _ => loadCycles dst src
  | load .. => none
  | jump kind c target => jumpCycles kind c target
  | rotate _ operand => if onPage then operand.bind (Operand.byPlace 2 4) else some 1
  | control _ => some 1

end Operation

/-! ## Traces follow the table -/

namespace Instruction

theorem loadCycles_eq {l : Load} (h : l.Legal) :
    Operation.loadCycles l.dst l.src = some (load l).machineCycles := by
  cases l
  case pop rr =>
    cases rr
    case sp => exact absurd rfl h
    all_goals rfl
  case push rr => rfl
  case pairImmediate rr v => cases rr <;> rfl
  all_goals rfl

/-- **The table.** Every operation that denotes an instruction has its machine
cycles in the table. -/
theorem Denotes.machineCycles_eq {e : Encoding} {op : Operation} {i : Instruction}
    (h : Denotes e op i) :
    op.machineCycles e.payload?.isSome = some i.machineCycles := by
  cases h with
  | @alu op a lhs hop hlhs s =>
      rcases s with (r | rr) | v <;> cases op <;> cases hop <;> rfl
  | @step8 op s hop p rhs => cases p <;> cases op <;> cases hop <;> rfl
  | @adjust op a hop lhs rhs => cases op <;> cases hop <;> rfl
  | @bitwise op bit payload hpayload hbit p => cases op <;> cases p <;> rfl
  | load l h => exact loadCycles_eq h
  | jump c a => cases c <;> rfl
  | ret c => cases c <;> rfl
  | rotate op hpayload p =>
      rw [hpayload]
      cases p <;> rfl
  | rotateA hpage hop h =>
      rw [hpage]
      rfl
  | _ => rfl

end Instruction

/-! ## Checks of durations -/

namespace Instruction

theorem condition?_of_notTaken {e : Encoding} {i : Instruction} {t : Trace}
    (ht : t ∈ i.traces e) (h : t.outcome = some .notTaken) : ∃ c, i.condition? = some c := by
  rw [traces] at ht
  split at ht
  case h_1 =>
    rw [List.mem_singleton.mp ht] at h
    cases h
  case h_2 c hc => exact ⟨c, hc⟩

/-- A branch saves one cycle if it is a jump and three if it uses the stack. -/
theorem Denotes.saving {e : Encoding} {op : Operation} {i : Instruction} {c : Condition}
    (h : Denotes e op i) (hc : i.condition? = some c) :
    ∃ kind target, op = .jump kind (some c) target ∧
      ((kind = .jp ∨ kind = .jr) ∧ i.cyclesSaved = 1 ∨
        (kind = .call ∨ kind = .ret) ∧ i.cyclesSaved = 3) := by
  cases h with
  | jump c' a =>
      obtain rfl : c' = some c := hc
      exact ⟨_, _, rfl, Or.inl ⟨Or.inl rfl, rfl⟩⟩
  | relative c' d =>
      obtain rfl : c' = some c := hc
      exact ⟨_, _, rfl, Or.inl ⟨Or.inr rfl, rfl⟩⟩
  | call c' a =>
      obtain rfl : c' = some c := hc
      exact ⟨_, _, rfl, Or.inr ⟨Or.inl rfl, rfl⟩⟩
  | ret c' =>
      obtain rfl : c' = some c := hc
      exact ⟨_, _, rfl, Or.inr ⟨Or.inr rfl, rfl⟩⟩
  | _ => cases hc

end Instruction

theorem Trace.cyclesSaved_eq_zero {i : Instruction} {t : Trace}
    (h : t.outcome ≠ some .notTaken) : t.cyclesSaved i = 0 := by
  rw [cyclesSaved]
  split
  · exact absurd ‹_› h
  · rfl

/-- A trace passes the check if it spans the declared cycles, those that it
saves included. -/
theorem Trace.checkDuration_eq_ok_iff {declared : UInt8} {saved : Nat} {t : Trace} :
    t.checkDuration declared saved = .ok () ↔ t.queue.haltCount + saved = declared.toNat := by
  rw [checkDuration]
  split
  case isTrue hshort =>
    simp only [reduceCtorEq, false_iff]
    omega
  case isFalse hlong =>
    split
    case isTrue hne =>
      simp only [reduceCtorEq, false_iff]
      omega
    case isFalse heq =>
      simp only [true_iff]
      omega

theorem Instruction.traces_ne_nil (e : Encoding) (i : Instruction) : i.traces e ≠ [] := by
  intro h
  rcases outcomes_traces e i with ho | ho <;> rw [h] at ho <;> cases ho

namespace Descriptor

section

variable {d : Descriptor} {e : Encoding} {i : Instruction}

/-- Every trace is checked against the same number of cycles. -/
theorem checkDuration_iff (hi : Instruction.decode e d.operation = .ok i) {t : Trace}
    (ht : t ∈ i.traces e) :
    t.checkDuration d.duration (t.cyclesSaved i) = .ok () ↔
      i.machineCycles = d.duration.toNat := by
  obtain ⟨hdenotes, hfits⟩ := Instruction.decode_eq_ok_iff.mp hi
  rw [Trace.checkDuration_eq_ok_iff,
    Instruction.haltCount_add_cyclesSaved (hdenotes.streamLength_le hfits) ht]

/-- **Acceptance.** A descriptor is accepted exactly if its bytes make a stream,
its operation denotes an instruction that fits this stream, and its duration is
the number of machine cycles of this instruction. -/
theorem assemble_eq_ok_iff_denotes {ts : List Trace} :
    d.assemble = .ok ts ↔ ∃ e i, d.encoding = .ok e ∧
      Instruction.Denotes e d.operation i ∧ i.fits e = true ∧
      i.machineCycles = d.duration.toNat ∧ ts = i.traces e := by
  rw [assemble_eq_ok_iff]
  constructor
  · rintro ⟨e, i, he, hi, rfl, hchecks⟩
    obtain ⟨hdenotes, hfits⟩ := Instruction.decode_eq_ok_iff.mp hi
    obtain ⟨t, ht⟩ := List.exists_mem_of_ne_nil _ (i.traces_ne_nil e)
    exact ⟨e, i, he, hdenotes, hfits, (checkDuration_iff hi ht).mp (hchecks t ht), rfl⟩
  · rintro ⟨e, i, he, hdenotes, hfits, hcycles, rfl⟩
    have hi := Instruction.decode_eq_ok_iff.mpr ⟨hdenotes, hfits⟩
    exact ⟨e, i, he, hi, rfl, fun t ht => (checkDuration_iff hi ht).mpr hcycles⟩

end

/-- What the duration of an accepted descriptor says. -/
structure Timed (d : Descriptor) (ts : List Trace) : Prop where
  /-- It is that of the table. -/
  declared : d.operation.machineCycles d.effectiveOpcode.onPage = some d.duration.toNat
  /-- Every trace spans it, except for a branch that is not taken. -/
  spans : ∀ t ∈ ts, t.outcome ≠ some .notTaken → t.queue.haltCount = d.duration.toNat
  /-- A branch that is not taken is shorter by one cycle for jumps and by three
  for calls and returns. -/
  saves : ∀ t ∈ ts, t.outcome = some .notTaken →
    ∃ kind c target, d.operation = .jump kind (some c) target ∧
      ((kind = .jp ∨ kind = .jr) ∧ t.queue.haltCount + 1 = d.duration.toNat ∨
        (kind = .call ∨ kind = .ret) ∧ t.queue.haltCount + 3 = d.duration.toNat)
  /-- No other duration is accepted with the same bytes and operands. -/
  unique : ∀ n us, { d with duration := n }.assemble = .ok us → n = d.duration

/-- **Declared durations are those of the hardware.** And if the taken side of a
branch spans the declared cycles, so does the other side what remains of them. -/
theorem timed_of_assemble (d : Descriptor) :
    (∀ ts, d.assemble = .ok ts → d.Timed ts) ∧
    ∀ e i taken notTaken, d.encoding = .ok e → Instruction.decode e d.operation = .ok i →
      i.traces e = [taken, notTaken] →
      taken.checkDuration d.duration (taken.cyclesSaved i) = .ok () →
      notTaken.checkDuration d.duration (notTaken.cyclesSaved i) = .ok () := by
  constructor
  · intro ts hts
    obtain ⟨e, i, he, hdenotes, hfits, hcycles, rfl⟩ := assemble_eq_ok_iff_denotes.mp hts
    have hspan : ∀ t ∈ i.traces e, t.queue.haltCount + t.cyclesSaved i = d.duration.toNat := by
      intro t ht
      rw [← hcycles, Instruction.haltCount_add_cyclesSaved (hdenotes.streamLength_le hfits) ht]
    refine ⟨?declared, ?spans, ?saves, ?unique⟩
    case declared =>
      have hpage : e.payload?.isSome = d.effectiveOpcode.onPage := by
        rw [payload?_of_encoding he, EffectiveOpcode.payload?]
        cases d.effectiveOpcode.onPage <;> rfl
      rw [← hpage, hdenotes.machineCycles_eq, hcycles]
    case spans =>
      intro t ht houtcome
      have h := hspan t ht
      rwa [Trace.cyclesSaved_eq_zero houtcome, Nat.add_zero] at h
    case saves =>
      intro t ht houtcome
      obtain ⟨c, hc⟩ := Instruction.condition?_of_notTaken ht houtcome
      obtain ⟨kind, target, hop, hsaving⟩ := hdenotes.saving hc
      have h := hspan t ht
      have hsaved : t.cyclesSaved i = i.cyclesSaved := by rw [Trace.cyclesSaved, houtcome]
      rw [hsaved] at h
      refine ⟨kind, c, target, hop, ?_⟩
      rcases hsaving with ⟨hkind, hsaving⟩ | ⟨hkind, hsaving⟩
      · exact Or.inl ⟨hkind, hsaving ▸ h⟩
      · exact Or.inr ⟨hkind, hsaving ▸ h⟩
    case unique =>
      intro n us hus
      obtain ⟨e', i', he', hdenotes', hfits', hcycles', -⟩ := assemble_eq_ok_iff_denotes.mp hus
      -- the duration has no part in the bytes and the operands
      obtain rfl : e' = e := Except.ok.inj (he'.symm.trans he)
      obtain rfl : i' = i := Except.ok.inj
        ((Instruction.decode_eq_ok_iff.mpr ⟨hdenotes', hfits'⟩).symm.trans
          (Instruction.decode_eq_ok_iff.mpr ⟨hdenotes, hfits⟩))
      exact UInt8.toNat_inj.mp (hcycles'.symm.trans hcycles)
  · intro e i taken notTaken _ hi htraces htaken
    rw [checkDuration_iff hi (by simp [htraces])] at htaken ⊢
    exact htaken

/-- `JP NZ` to an address, as a descriptor and as an instruction. -/
def jumpSample : Descriptor :=
  ⟨0xC2CDAB, 3, 4, .jump .jp (some .notZero) (some ⟨.imm16 0xABCD, false⟩)⟩

def jumpSampleEncoding : Encoding :=
  ⟨0xC2, [0xCD, 0xAB]⟩

def jumpSampleInstruction : Instruction :=
  .transfer (.jump (some .notZero) 0xABCD)

theorem encoding_jumpSample : jumpSample.encoding = .ok jumpSampleEncoding :=
  encoding_eq_ok_iff.mpr ⟨by decide, by decide, by decide⟩

theorem assemble_jumpSample :
    jumpSample.assemble = .ok (jumpSampleInstruction.traces jumpSampleEncoding) :=
  assemble_eq_ok_iff_denotes.mpr ⟨jumpSampleEncoding, jumpSampleInstruction,
    encoding_jumpSample, .jump _ _, rfl, rfl, rfl⟩

/-- The jump takes four cycles, and three if it is not taken. -/
theorem timed_of_assemble_jump :
    (∃ ts, jumpSample.assemble = .ok ts ∧ jumpSample.Timed ts) ∧
    ∃ e i taken notTaken, jumpSample.encoding = .ok e ∧
      Instruction.decode e jumpSample.operation = .ok i ∧ i.traces e = [taken, notTaken] ∧
      taken.checkDuration 4 (taken.cyclesSaved i) = .ok () ∧
      notTaken.checkDuration 4 (notTaken.cyclesSaved i) = .ok () := by
  have hi : Instruction.decode jumpSampleEncoding jumpSample.operation =
      .ok jumpSampleInstruction := rfl
  constructor
  · exact ⟨_, assemble_jumpSample, (timed_of_assemble jumpSample).1 _ assemble_jumpSample⟩
  · exact ⟨_, _, _, _, encoding_jumpSample, hi, rfl, rfl,
      (timed_of_assemble jumpSample).2 _ _ _ _ encoding_jumpSample hi rfl rfl⟩

end Descriptor

end GoldenTrace
