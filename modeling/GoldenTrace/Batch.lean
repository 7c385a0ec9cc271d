import GoldenTrace.Assembly

/-!
# Batches

A batch turns a list of entries into named test cases. Entries are taken in the
order of their effective opcodes, and of several with one opcode only the first
counts. Unsupported entries are collected beside the cases; a malformed one
ends the batch.
-/

namespace GoldenTrace

/-- One expected execution with its name. -/
structure TestCase where
  name : String
  instruction : Descriptor
  preset : PresetName
  outcome : Option Outcome
  queue : Queue
  deriving DecidableEq

def TestCase.opcode (c : TestCase) : EffectiveOpcode :=
  c.instruction.effectiveOpcode

/-- The name of a case: the opcode, and the side of a branch. -/
def caseName (op : EffectiveOpcode) : Option Outcome → String
  | none => op.display
  | some o => op.display ++ "_" ++ Named.name o

/-- An entry that no instruction is known for. -/
structure Unsupported where
  instruction : String
  machineCode : UInt32
  reason : String
  deriving DecidableEq

structure Report where
  cases : List TestCase
  unsupported : List Unsupported
  deriving DecidableEq

structure BatchOptions where
  /-- Whether unsupported entries fail the batch. -/
  strict : Bool
  /-- Effective opcodes that are left out. -/
  exclude : List UInt16

inductive BatchError where
  | unsupported (machineCode : UInt32) (gap : Gap)
  | malformed (machineCode : UInt32) (defect : Defect)
  /-- Entries of a strict batch were unsupported; the first is named. -/
  | strict (machineCode : UInt32) (count : Nat) (reason : String)
  deriving DecidableEq

namespace BatchError

def ofRefusal (d : Descriptor) : Refusal → BatchError
  | .unsupported gap => .unsupported d.machineCode gap
  | .malformed defect => .malformed d.machineCode defect

def machineCode : BatchError → UInt32
  | unsupported code _ => code
  | malformed code _ => code
  | strict code _ _ => code

def message : BatchError → String
  | unsupported code gap =>
    "unsupported instruction " ++ Text.hexLiteral 6 code.toNat ++ ": " ++ gap.message
  | malformed code defect =>
    "malformed descriptor " ++ Text.hexLiteral 6 code.toNat ++ ": " ++ defect.message
  | strict code count reason =>
    "unsupported instruction " ++ Text.hexLiteral 6 code.toNat ++ ": " ++ showNat count ++
      " instructions unsupported in strict mode, first: " ++ reason

end BatchError

namespace Batch

/-- Entries in the order of their opcodes. Entries with one opcode stay in the
order they were given in. -/
def inOrder (entries : List InstructionEntry) : List InstructionEntry :=
  entries.mergeSort fun a b => decide (a.opcode.value ≤ b.opcode.value)

/-- Drops every entry with the opcode of the entry that was kept before it. -/
def dropRepeats (last : Option EffectiveOpcode) : List InstructionEntry → List InstructionEntry
  | [] => []
  | e :: es =>
    if last = some e.opcode then dropRepeats last es else e :: dropRepeats (some e.opcode) es

/-- The entries that a batch goes through. -/
def worklist (entries : List InstructionEntry) : List InstructionEntry :=
  dropRepeats none (inOrder entries)

def caseOf (e : InstructionEntry) (t : Trace) : TestCase where
  name := caseName e.opcode t.outcome
  instruction := e.descriptor
  preset := t.preset
  outcome := t.outcome
  queue := t.queue

def take (r : Report) (e : InstructionEntry) : Except BatchError Report :=
  match e.descriptor.assemble with
  | .ok ts => .ok { r with cases := r.cases ++ ts.map (caseOf e) }
  | .error (.unsupported gap) =>
    .ok { r with
      unsupported := r.unsupported ++ [⟨e.instruction, e.descriptor.machineCode, gap.message⟩] }
  | .error (.malformed defect) => .error (.malformed e.descriptor.machineCode defect)

/-- Goes on to one entry, which may be left out. -/
def step (exclude : List UInt16) (r : Report) (e : InstructionEntry) : Except BatchError Report :=
  if exclude.contains e.opcode.value then .ok r else take r e

/-- The place of an outcome among those of one opcode. -/
def rank : Option Outcome → Nat
  | none => 0
  | some .taken => 1
  | some .notTaken => 2

/-- Whether a case may stand before another in a report. -/
def caseLe (a b : TestCase) : Bool :=
  decide (a.opcode.value < b.opcode.value ∨
    a.opcode.value = b.opcode.value ∧ rank a.outcome ≤ rank b.outcome)

/-- What a batch makes of its entries, the cases in order of their opcodes and
outcomes. -/
def collect (exclude : List UInt16) (entries : List InstructionEntry) :
    Except BatchError Report := do
  let r ← entries.foldlM (step exclude) ⟨[], []⟩
  return { r with cases := r.cases.mergeSort caseLe }

/-- Fails a strict batch with unsupported entries. -/
def checkStrict (strict : Bool) (r : Report) : Except BatchError Report :=
  match strict, r.unsupported with
  | true, u :: us => .error (.strict u.machineCode (us.length + 1) u.reason)
  | _, _ => .ok r

/-- The test cases of a list of entries. -/
def generate (entries : List InstructionEntry) (options : BatchOptions) :
    Except BatchError Report := do
  checkStrict options.strict (← collect options.exclude (worklist entries))

end Batch

end GoldenTrace
