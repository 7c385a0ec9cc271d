import GoldenTrace.Batch
import GoldenTrace.Command.Codec
import GoldenTrace.Descriptor.Codec
import GoldenTrace.Json.Printer

/-!
# Fixtures

A fixture is the file that holds the test cases of a batch. Beside them it
carries the unsupported instructions, unless there are none. The file is one
JSON value and a line feed.
-/

namespace GoldenTrace

open Json (Origin Read Fields)

/-- The contents of a fixture file. -/
structure Fixture where
  cases : List TestCase
  unsupported : List Unsupported
  deriving DecidableEq

namespace TestCase

def toJson (c : TestCase) : Json :=
  .obj ([("name", .str c.name), ("instruction", c.instruction.toJson),
      ("preset", Named.toJson c.preset)] ++
    (match c.outcome with
      | none => []
      | some o => [("outcome", Named.toJson o)]) ++
    [("command_queue", c.queue.toJson)])

def fields : Fields TestCase :=
  (((((Fields.required "name" Json.asString).both
    (Fields.required "instruction" Descriptor.ofJson)).both
    (Fields.required "preset" (Named.ofJson .streamed))).both
    (Fields.optional "outcome" (Named.ofJson .streamed))).both
    (Fields.required "command_queue" Queue.ofJson))
  |>.map fun ((((name, instruction), preset), outcome), queue) =>
    ⟨name, instruction, preset, outcome, queue⟩

def ofJson : Json → Read TestCase :=
  fields.read .streamed

end TestCase

namespace Unsupported

def toJson (u : Unsupported) : Json :=
  .obj [("instruction", .str u.instruction), ("machine_code", .nat u.machineCode.toNat),
    ("reason", .str u.reason)]

def fields : Fields Unsupported :=
  (((Fields.required "instruction" Json.asString).both
    (Fields.required "machine_code" Json.asUInt32)).both
    (Fields.required "reason" Json.asString))
  |>.map fun ((instruction, machineCode), reason) => ⟨instruction, machineCode, reason⟩

def ofJson : Json → Read Unsupported :=
  fields.read .streamed

end Unsupported

namespace Fixture

def ofReport (r : Report) : Fixture :=
  ⟨r.cases, r.unsupported⟩

def find? (f : Fixture) (name : String) : Option TestCase :=
  f.cases.find? fun c => c.name == name

def toJson (f : Fixture) : Json :=
  .obj (("test_cases", .arr (f.cases.map TestCase.toJson)) ::
    match f.unsupported with
    | [] => []
    | us => [("unsupported", .arr (us.map Unsupported.toJson))])

def fields : Fields Fixture :=
  (Fields.required "test_cases" (Json.asList TestCase.ofJson)).both
    (Fields.defaulted "unsupported" [] (Json.asList Unsupported.ofJson))
  |>.map fun (cases, unsupported) => ⟨cases, unsupported⟩

def ofJson : Json → Read Fixture :=
  fields.read .streamed

def render (layout : Json.Layout) (f : Fixture) : String :=
  f.toJson.render layout ++ "\n"

def parse (text : String) : Read Fixture :=
  Json.readText ofJson text

def parseBytes (bytes : List UInt8) : Read Fixture :=
  Json.readBytes ofJson bytes

end Fixture

end GoldenTrace
