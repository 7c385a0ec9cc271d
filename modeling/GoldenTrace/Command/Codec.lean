import GoldenTrace.Command.Queue

/-!
# Commands as JSON

A cycle end is the string `"halt"`; writes and suspensions are objects with one
key. A write names its target and its value apart, and is refused if the value
is of the wrong width.
-/

namespace GoldenTrace

open Json (Origin Read Fields)

namespace Target

def toJson : Target → Json
  | register8 r => .obj [("register8", Named.toJson r)]
  | register16 r => .obj [("register16", Named.toJson r)]
  | memory a => .obj [("memory", .nat a.toNat)]
  | flag f => .obj [("flag", Named.toJson f)]
  | ime => .str "interrupt_master_enable"
  | addressBus => .str "address_bus"
  | dataBus => .str "data_bus"
  | pc => .str "program_counter"
  | ir => .str "instruction_register"

/-- A target that stands alone, by its name. -/
def ofName? (tag : String) : Option Target :=
  if tag = "interrupt_master_enable" then some ime
  else if tag = "address_bus" then some addressBus
  else if tag = "data_bus" then some dataBus
  else if tag = "program_counter" then some pc
  else if tag = "instruction_register" then some ir
  else none

def ofJson : Json → Read Target :=
  Json.asVariant .streamed fun tag payload =>
    if tag = "register8" then register8 <$> Json.asPayload (Named.ofJson .streamed) payload
    else if tag = "register16" then register16 <$> Json.asPayload (Named.ofJson .streamed) payload
    else if tag = "memory" then memory <$> Json.asPayload Json.asUInt16 payload
    else if tag = "flag" then flag <$> Json.asPayload (Named.ofJson .streamed) payload
    else
      match ofName? tag with
      | some t => (fun _ => t) <$> Json.asNothing .streamed payload
      | none => .error .shape

end Target

namespace Value

def toJson : Value → Json
  | byte v => .obj [("byte", .nat v.toNat)]
  | word v => .obj [("word", .nat v.toNat)]

def ofJson : Json → Read Value :=
  Json.asVariant .streamed fun tag payload =>
    if tag = "byte" then byte <$> Json.asPayload Json.asUInt8 payload
    else if tag = "word" then word <$> Json.asPayload Json.asUInt16 payload
    else .error .shape

end Value

namespace Write

def toJson (w : Write) : Json :=
  .obj [("target", w.target.toJson), ("value", w.value.toJson)]

def fields : Fields Write :=
  (Fields.required "target" Target.ofJson).both (Fields.required "value" Value.ofJson)
  |>.andThen fun (target, value) =>
    match of? target value with
    | some w => .ok w
    | none => .error .shape

def ofJson : Json → Read Write :=
  fields.read .streamed

end Write

instance : Named Suspend where
  all := [.halt, .stop]
  name
    | .halt => "halt"
    | .stop => "stop"

namespace Command

def toJson : Command → Json
  | write w => .obj [("write", w.toJson)]
  | halt => .str "halt"
  | suspend s => .obj [("suspend", Named.toJson s)]

def ofJson : Json → Read Command :=
  Json.asVariant .streamed fun tag payload =>
    if tag = "write" then write <$> Json.asPayload Write.ofJson payload
    else if tag = "halt" then (fun _ => halt) <$> Json.asNothing .streamed payload
    else if tag = "suspend" then suspend <$> Json.asPayload (Named.ofJson .streamed) payload
    else .error .shape

end Command

namespace Queue

def toJson (q : Queue) : Json :=
  .arr (q.map Command.toJson)

def ofJson : Json → Read Queue :=
  Json.asList Command.ofJson

end Queue

end GoldenTrace
