import GoldenTrace.Json.Reader
import GoldenTrace.Text.Numeral

/-!
# Effective opcodes

A machine code packs the bytes of an instruction, the first one most
significant. Its effective opcode is what identifies the instruction: the
leading byte, or, on the second page of opcodes, the byte `0xCB` together with
the byte after it. Immediates and displacements do not take part.
-/

namespace GoldenTrace

/-- The byte that selects the second page of opcodes. -/
def pageByte : UInt8 := 0xCB

/-- The `count` low bytes of a number, the most significant first. -/
def bigEndian : Nat → Nat → List UInt8
  | 0, _ => []
  | count + 1, n => bigEndian count (n / 256) ++ [UInt8.ofNat n]

/-- What identifies an instruction. -/
structure EffectiveOpcode where
  value : UInt16
  deriving DecidableEq

namespace EffectiveOpcode

/-- The effective opcode of a machine code. The leading byte is the first that
is not zero; a code without one has opcode zero. -/
def ofCode (code : UInt32) : EffectiveOpcode :=
  match (bigEndian 4 code.toNat).dropWhile (· == 0) with
  | [] => ⟨0⟩
  | [lead] => ⟨lead.toUInt16⟩
  | lead :: next :: _ =>
    if lead = pageByte then ⟨0xCB00 + next.toUInt16⟩ else ⟨lead.toUInt16⟩

def onPage (op : EffectiveOpcode) : Bool :=
  op.value.toNat / 256 == pageByte.toNat

/-- The byte that is fetched first. -/
def leading (op : EffectiveOpcode) : UInt8 :=
  if op.onPage then pageByte else op.value.toUInt8

def payload? (op : EffectiveOpcode) : Option UInt8 :=
  if op.onPage then some op.value.toUInt8 else none

/-- Two hexadecimal digits, or four on the second page. -/
def display (op : EffectiveOpcode) : String :=
  Text.hexLiteral (if op.onPage then 4 else 2) op.value.toNat

def toJson (op : EffectiveOpcode) : Json :=
  .nat op.value.toNat

def ofJson (v : Json) : Json.Read EffectiveOpcode :=
  EffectiveOpcode.mk <$> v.asUInt16

end EffectiveOpcode

end GoldenTrace
