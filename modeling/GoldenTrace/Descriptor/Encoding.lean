import GoldenTrace.Descriptor.Basic

/-!
# Encodings

An encoding is the bytes of an instruction in the order of the stream. It
always has a leading byte, and that byte is the one the effective opcode of the
machine code begins with.
-/

namespace GoldenTrace

structure Encoding where
  lead : UInt8
  tail : List UInt8
  deriving DecidableEq

namespace Encoding

def bytes (e : Encoding) : List UInt8 :=
  e.lead :: e.tail

def length (e : Encoding) : Nat :=
  e.bytes.length

/-- The byte after the page byte, for instructions of the second page. -/
def payload? (e : Encoding) : Option UInt8 :=
  if e.lead = pageByte then e.tail.head? else none

end Encoding

/-- Why the machine code of a descriptor is no instruction stream. -/
inductive EncodingError where
  /-- There are not one to three bytes, or the code does not fit them. -/
  | length (byteLength : UInt8)
  /-- The first byte is not where the opcode begins. -/
  | lead (byte : UInt8)
  deriving DecidableEq

def Descriptor.encoding (d : Descriptor) : Except EncodingError Encoding :=
  match d.bytes? with
  | some (lead :: tail) =>
    if lead = d.effectiveOpcode.leading then .ok ⟨lead, tail⟩ else .error (.lead lead)
  | _ => .error (.length d.byteLength)

end GoldenTrace
