import GoldenTrace.Fixture
import GoldenTrace.Proofs.Command.Codec
import GoldenTrace.Proofs.Descriptor.Codec
import GoldenTrace.Proofs.Json.Parsing
import GoldenTrace.Proofs.Utf8

/-!
# Fixture files read back

A fixture file is read back as the fixture it was written from, in either
layout. The value of a fixture is seven levels of containers deep, so nothing
of it is nested too deep for the reader.
-/

namespace GoldenTrace

open Json (Faithful)
open Json.Fields (Takes takes_required takes_default takes_defaulted takes_optional)

namespace TestCase

/-- The outcome is left out where there is none. -/
theorem takes_outcome (n : Nat) (outcome : Option Outcome) :
    (Json.Fields.optional "outcome" (Named.ofJson .streamed)).Takes n
      (match outcome with
        | none => []
        | some o => [("outcome", Named.toJson o)]) outcome := by
  cases outcome with
  | none => exact takes_default "outcome" none _
  | some o =>
      exact takes_optional (Json.faithful_named .streamed n) Named.toJson_ne_null "outcome" (some o)

theorem takes_members (n : Nat) (c : TestCase) :
    fields.Takes (n + 4)
      ([("name", .str c.name), ("instruction", c.instruction.toJson),
          ("preset", Named.toJson c.preset)] ++
        (match c.outcome with
          | none => []
          | some o => [("outcome", Named.toJson o)]) ++
        [("command_queue", c.queue.toJson)]) c :=
  (((((takes_required (Json.faithful_string _) "name" c.name).both
    (takes_required (Descriptor.faithful n) "instruction" c.instruction) (by simp)).both
    (takes_required (Json.faithful_named .streamed _) "preset" c.preset) (by simp)).both
    (takes_outcome _ c.outcome) (by simp)).both
    (takes_required (Queue.faithful n) "command_queue" c.queue) (by simp)).map _

theorem faithful (n : Nat) : Faithful (n + 5) toJson ofJson :=
  Json.Fields.faithful_of_takes .streamed (takes_members n)

end TestCase

namespace Unsupported

theorem takes_members (n : Nat) (u : Unsupported) :
    fields.Takes n
      [("instruction", .str u.instruction), ("machine_code", .nat u.machineCode.toNat),
        ("reason", .str u.reason)] u :=
  (((takes_required (Json.faithful_string n) "instruction" u.instruction).both
    (takes_required (Json.faithful_uInt32 n) "machine_code" u.machineCode) (by simp)).both
    (takes_required (Json.faithful_string n) "reason" u.reason) (by simp)).map _

theorem faithful (n : Nat) : Faithful (n + 1) toJson ofJson :=
  Json.Fields.faithful_of_takes .streamed (takes_members n)

end Unsupported

namespace Fixture

/-- The unsupported instructions are left out where there are none. -/
theorem takes_unsupported (n : Nat) (us : List Unsupported) :
    (Json.Fields.defaulted "unsupported" [] (Json.asList Unsupported.ofJson)).Takes (n + 2)
      (match us with
        | [] => []
        | us => [("unsupported", .arr (us.map Unsupported.toJson))]) us := by
  cases us with
  | nil => exact takes_default "unsupported" [] _
  | cons u us => exact takes_defaulted (Unsupported.faithful n).list "unsupported" [] (u :: us)

theorem takes_members (n : Nat) (f : Fixture) :
    fields.Takes (n + 6)
      (("test_cases", .arr (f.cases.map TestCase.toJson)) ::
        match f.unsupported with
        | [] => []
        | us => [("unsupported", .arr (us.map Unsupported.toJson))]) f :=
  ((takes_required (TestCase.faithful n).list "test_cases" f.cases).both
    (takes_unsupported (n + 4) f.unsupported) (by simp)).map _

theorem faithful (n : Nat) : Faithful (n + 7) toJson ofJson :=
  Json.Fields.faithful_of_takes .streamed (takes_members n)

/-- Reading a fixture file is reading the fixture's value. -/
theorem parse_eq (layout : Json.Layout) (f : Fixture) :
    parse (f.render layout) = ofJson f.toJson :=
  Json.readText_render ofJson layout ((faithful 120).within f)

/-- **A fixture file holds its fixture.** In either layout, the text of a
fixture is read back as exactly this fixture. -/
theorem parse_render (layout : Json.Layout) (f : Fixture) :
    parse (f.render layout) = .ok f := by
  rw [parse_eq]
  exact (faithful 0).read_write f

theorem parseBytes_render (layout : Json.Layout) (f : Fixture) :
    parseBytes (Text.encode (f.render layout)) = .ok f := by
  rw [parseBytes, Json.readBytes_encode]
  exact (parse_eq layout f).trans ((faithful 0).read_write f)

end Fixture

end GoldenTrace
