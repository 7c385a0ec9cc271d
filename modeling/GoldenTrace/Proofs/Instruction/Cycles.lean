import GoldenTrace.Instruction.Trace
import GoldenTrace.Proofs.Descriptor.Encoding
import GoldenTrace.Proofs.Instruction.Operands

/-!
# Machine cycles of traces

How many machine cycles a trace spans does not depend on the values it works
with. An effect spans a number of cycles that the instruction alone decides, and
the opening before it one cycle for every byte that is read. So all traces of an
instruction agree on its machine cycles, if those that a branch saves are added
to the side that is not taken.
-/

namespace GoldenTrace

/-! ## Cycles of queues -/

namespace Queue

@[simp] theorem haltCount_nil : haltCount [] = 0 := rfl

@[simp] theorem haltCount_write (w : Write) (q : Queue) :
    haltCount (.write w :: q) = haltCount q := rfl

@[simp] theorem haltCount_halt (q : Queue) : haltCount (.halt :: q) = haltCount q + 1 :=
  List.countP_cons_of_pos rfl

@[simp] theorem haltCount_suspend (s : Suspend) (q : Queue) :
    haltCount (.suspend s :: q) = haltCount q := rfl

@[simp] theorem haltCount_append (q q' : Queue) :
    haltCount (q ++ q') = haltCount q + haltCount q' := by
  simp [haltCount]

@[simp] theorem haltCount_ofWrites (ws : List Write) : haltCount (ofWrites ws) = 0 := by
  induction ws with
  | nil => rfl
  | cons w ws ih => exact ih

@[simp] theorem haltCount_ofFlags (u : FlagUpdate) : haltCount (ofFlags u) = 0 :=
  haltCount_ofWrites u.writes

/-- Every byte of the stream is read in a cycle of its own. -/
@[simp] theorem haltCount_fetch (pc : UInt16) (bytes : List UInt8) :
    haltCount (fetch pc bytes) = bytes.length := by
  induction bytes generalizing pc with
  | nil => rfl
  | cons b bytes ih => simp [fetch, ih]

@[simp] theorem haltCount_pushWord (sp v : UInt16) : haltCount (pushWord sp v) = 3 := rfl

@[simp] theorem haltCount_popWord (sp : UInt16) (more : List Write) :
    haltCount (popWord sp more) = 2 := by
  simp [popWord]

end Queue

/-! ## Cycles of effects -/

/-- How many cycles it takes to get at a place. -/
def Place.accessCycles : Place → Nat
  | register _ => 0
  | pointer _ => 1

@[simp] theorem Place.haltCount_access (p : Place) : p.access.haltCount = p.accessCycles := by
  cases p <;> rfl

/-- How many cycles a load takes beside those of its stream. -/
def Load.effectCycles : Load → Nat
  | register .. | pairImmediate .. | immediate .. => 0
  | fromPointer .. | toPointer .. | pointerImmediate .. | highStore .. | highLoad ..
  | absoluteStore .. | absoluteLoad .. | indexedLoad .. | indexedStore .. | stackFromHl
  | hlFromStack _ => 1
  | storeStackPointer _ | pop _ => 2
  | push _ => 3

/-- How many cycles a transfer takes to get to its target. -/
def Transfer.effectCycles : Transfer → Nat
  | jumpHl => 0
  | jump .. | relative .. => 1
  | call .. | ret _ | reti | restart _ => 3

namespace Instruction

open Queue

/-- How many cycles an instruction takes beside those of its stream and of a
condition. -/
def effectCycles : Instruction → Nat
  | alu _ (.immediate _) | adjust _ | rotateA _ | control _ => 0
  | alu _ (.place p) => p.accessCycles
  | step8 _ p => 2 * p.accessCycles
  | step16 .. | addHl _ => 1
  | addSp _ => 2
  | bitwise .bit _ p => p.accessCycles
  | bitwise _ _ p => 2 * p.accessCycles
  | load l => l.effectCycles
  | transfer t => t.effectCycles
  | rotate _ p => 2 * p.accessCycles

theorem haltCount_aluEffect (p : Preset) (lead : UInt8) (op : AluOp) (source : Source) :
    (aluEffect p lead op source).haltCount = (alu op source).effectCycles := by
  -- a comparison has no write to the accumulator, so the shape depends on `op`
  rcases source with (r | rr) | v <;> cases op <;>
    simp [aluEffect, busRead, restoreBuses, effectCycles, Place.accessCycles]

theorem haltCount_step8Effect (p : Preset) (lead : UInt8) (s : Step) (place : Place) :
    (step8Effect p lead s place).haltCount = (step8 s place).effectCycles := by
  cases place <;> simp [step8Effect, busRead, restoreBuses, effectCycles, Place.accessCycles]

theorem haltCount_adjustEffect (p : Preset) (a : Adjustment) :
    (adjustEffect p a).haltCount = 0 := by
  cases a <;> simp [adjustEffect]

theorem haltCount_bitwiseEffect (p : Preset) (op : BitOp) (bit : UInt8) (place : Place) :
    (bitwiseEffect p op bit place).haltCount = (bitwise op bit place).effectCycles := by
  cases op <;> simp [bitwiseEffect, effectCycles] <;> omega

theorem haltCount_rotateEffect (p : Preset) (op : RotateOp) (place : Place) :
    (rotateEffect p op place).haltCount = 2 * place.accessCycles := by
  simp [rotateEffect]
  omega

theorem haltCount_loadEffect (p : Preset) (l : Load) :
    (loadEffect p l).haltCount = l.effectCycles := by
  cases l
  case fromPointer dst ptr step => cases step <;> simp [loadEffect, stepPointer, Load.effectCycles]
  case toPointer ptr src step => cases step <;> simp [loadEffect, stepPointer, Load.effectCycles]
  all_goals simp [loadEffect, hlFromStackEffect, Load.effectCycles]

theorem haltCount_transferEffect (p : Preset) (length : Nat) (t : Transfer) :
    (transferEffect p length t).haltCount = t.effectCycles := by
  cases t <;> simp [transferEffect, jumpTo, Transfer.effectCycles]

/-- What an effect writes does not change how long it takes. -/
theorem haltCount_effect (p : Preset) (e : Encoding) (i : Instruction) :
    (i.effect p e).haltCount = i.effectCycles := by
  cases i with
  | alu op source => exact haltCount_aluEffect p e.lead op source
  | step8 s place => exact haltCount_step8Effect p e.lead s place
  | adjust a => exact haltCount_adjustEffect p a
  | step16 s rr => rfl
  | addHl rr => simp [effect, addHlEffect, effectCycles]
  | addSp d => simp [effect, addSpEffect, effectCycles]
  | bitwise op bit place => exact haltCount_bitwiseEffect p op bit place
  | load l => exact haltCount_loadEffect p l
  | transfer t => exact haltCount_transferEffect p e.length t
  | rotateA op => simp [effect, rotateAEffect, effectCycles]
  | rotate op place => exact haltCount_rotateEffect p op place
  | control op => cases op <;> rfl

/-! ## Cycles of traces -/

/-- The machine cycles of an instruction that takes its effect. -/
def machineCycles (i : Instruction) : Nat :=
  i.streamLength + i.delay.haltCount + i.effectCycles

/-- Every instruction reads its opcode. -/
theorem streamLength_pos (i : Instruction) : 0 < i.streamLength := by
  cases i <;> simp only [streamLength] <;> omega

theorem fits_iff {e : Encoding} {i : Instruction} :
    i.fits e = true ↔ i.immediates = [] ∨ e.tail = i.immediates := by
  rw [fits, Bool.or_eq_true, List.isEmpty_iff, beq_iff_eq]

/-- What an instruction reads of the stream is there. -/
theorem Denotes.streamLength_le {e : Encoding} {op : Operation} {i : Instruction}
    (h : Denotes e op i) (hfits : i.fits e = true) : i.streamLength ≤ e.bytes.length := by
  have hpage : ∀ b, e.payload? = some b → 2 ≤ e.bytes.length := by
    intro b hb
    obtain ⟨rest, hrest⟩ := Encoding.payload?_eq_some_iff.mp hb
    rw [hrest, Encoding.bytes, List.length_cons, List.length_cons]
    omega
  have himmediates : 1 + i.immediates.length ≤ e.bytes.length := by
    rcases fits_iff.mp hfits with hnone | htail
    · rw [hnone, Encoding.bytes, List.length_cons, List.length_nil]
      omega
    · rw [← htail, Encoding.bytes, List.length_cons]
      omega
  cases h with
  | bitwise hpayload hbit p => exact hpage _ hpayload
  | rotate op hpayload p => exact hpage _ hpayload
  | _ => exact himmediates

section

variable {e : Encoding} {i : Instruction}

theorem haltCount_opening (h : i.streamLength ≤ e.bytes.length) (p : Preset) :
    (i.opening p e).haltCount = i.streamLength + i.delay.haltCount := by
  rw [opening, haltCount_append, haltCount_fetch, List.length_take, Nat.min_eq_left h]

theorem haltCount_execution (h : i.streamLength ≤ e.bytes.length) (p : Preset) :
    (i.execution p e).haltCount = i.machineCycles := by
  rw [execution, haltCount_append, haltCount_opening h, haltCount_effect]
  rfl

/-- A branch that is not taken saves exactly the cycles of its effect. -/
theorem cyclesSaved_eq {c : Condition} (h : i.condition? = some c) :
    i.cyclesSaved = i.effectCycles := by
  cases i with
  | transfer t =>
      cases t with
      | jumpHl | reti | restart v => cases h
      | _ => rfl
  | _ => cases h

/-- **Machine cycles.** Every trace of an instruction spans its machine cycles,
but for those that the trace saves. -/
theorem haltCount_add_cyclesSaved (h : i.streamLength ≤ e.bytes.length) {t : Trace}
    (ht : t ∈ i.traces e) : t.queue.haltCount + t.cyclesSaved i = i.machineCycles := by
  rw [traces] at ht
  split at ht
  case h_1 =>
    rw [List.mem_singleton.mp ht]
    exact haltCount_execution h _
  case h_2 c hc =>
    rcases List.mem_cons.mp ht with rfl | ht
    · exact haltCount_execution h _
    · rw [List.mem_singleton.mp ht]
      show (i.opening _ e).haltCount + i.cyclesSaved = _
      rw [haltCount_opening h, cyclesSaved_eq hc]
      rfl

end

end Instruction

end GoldenTrace
