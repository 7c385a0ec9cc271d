import GoldenTrace.Instruction.Trace

/-!
# Assembly

A descriptor is assembled into the traces of its instruction. Every trace must
span as many machine cycles as the descriptor declares, less those a branch
saves when it is not taken; the first that does not is the descriptor's fault.
-/

namespace GoldenTrace

namespace Trace

/-- Checks the machine cycles of a trace against those declared, of which
`saved` do not take place. -/
def checkDuration (declared : UInt8) (saved : Nat) (t : Trace) : Decoded Unit :=
  if declared.toNat < saved then .error (.malformed (.durationTooShort declared))
  else if t.queue.haltCount ≠ declared.toNat - saved then
    .error (.malformed (.duration (declared.toNat - saved) t.outcome t.queue.haltCount))
  else .ok ()

/-- The cycles that a trace of an instruction does without. -/
def cyclesSaved (i : Instruction) (t : Trace) : Nat :=
  match t.outcome with
  | some .notTaken => i.cyclesSaved
  | _ => 0

end Trace

namespace Descriptor

/-- The bytes of a descriptor, or why there are none. -/
def stream (d : Descriptor) : Decoded Encoding :=
  match d.encoding with
  | .ok e => .ok e
  | .error reason => .error (.malformed (.encoding reason))

/-- Every expected trace of a descriptor. -/
def assemble (d : Descriptor) : Decoded (List Trace) := do
  let e ← d.stream
  let i ← Instruction.decode e d.operation
  let ts := i.traces e
  ts.forM fun t => t.checkDuration d.duration (t.cyclesSaved i)
  return ts

end Descriptor

end GoldenTrace
