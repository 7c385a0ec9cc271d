import GoldenTrace.Descriptor.Operation
import GoldenTrace.Opcode

/-!
# Descriptors

A descriptor is the decoder's account of one instruction: its bytes packed into
a machine code, their number, the machine cycles it takes and its operation. A
source is a list of descriptors, each beside the text it was made from.
-/

namespace GoldenTrace

/-- One decoded instruction. `duration` counts machine cycles, for a
conditional branch those of the taken one. -/
structure Descriptor where
  machineCode : UInt32
  byteLength : UInt8
  duration : UInt8
  operation : Operation
  deriving DecidableEq

namespace Descriptor

/-- The bytes of the instruction in the order of the stream; none unless there
are one to three and the machine code fits them. -/
def bytes? (d : Descriptor) : Option (List UInt8) :=
  let count := d.byteLength.toNat
  if 1 ≤ count ∧ count ≤ 3 ∧ d.machineCode.toNat < Nat.pow 256 count then
    some (bigEndian count d.machineCode.toNat)
  else none

def effectiveOpcode (d : Descriptor) : EffectiveOpcode :=
  .ofCode d.machineCode

end Descriptor

/-- A descriptor beside the text of its instruction. -/
structure InstructionEntry where
  instruction : String
  descriptor : Descriptor
  deriving DecidableEq

def InstructionEntry.opcode (e : InstructionEntry) : EffectiveOpcode :=
  e.descriptor.effectiveOpcode

end GoldenTrace
