import GoldenTrace.Descriptor.Basic

/-!
# Descriptors as JSON

A descriptor is an object whose member `params` holds the operation: `category`
says which of the seven it is and the other members are its operation and
operands. Operands that are absent are written as `null`, and may be left out
when read. The category may come anywhere among the members, so they are held
back until it is known. In an array that stands for an operation it comes
first.
-/

namespace GoldenTrace

open Json (Origin Read Fields)

namespace Operand

def Kind.toJson : Kind → Json
  | register8 r => .obj [("register8", Named.toJson r)]
  | register16 r => .obj [("register16", Named.toJson r)]
  | imm8 v => .obj [("imm8", .nat v.toNat)]
  | imm16 v => .obj [("imm16", .nat v.toNat)]
  | signedImm8 v => .obj [("signed_imm8", .int v.toInt)]

def Kind.ofJson (origin : Origin) : Json → Read Kind :=
  Json.asVariant origin fun tag payload =>
    if tag = "register8" then register8 <$> Json.asPayload (Named.ofJson origin) payload
    else if tag = "register16" then register16 <$> Json.asPayload (Named.ofJson origin) payload
    else if tag = "imm8" then imm8 <$> Json.asPayload Json.asUInt8 payload
    else if tag = "imm16" then imm16 <$> Json.asPayload Json.asUInt16 payload
    else if tag = "signed_imm8" then signedImm8 <$> Json.asPayload Json.asInt8 payload
    else .error .shape

def toJson (o : Operand) : Json :=
  .obj [("kind", o.kind.toJson), ("pointer", .bool o.pointer)]

/-- The members of an operand. An operand is no pointer unless it says so. -/
def fields (origin : Origin) : Fields Operand :=
  (Fields.required "kind" (Kind.ofJson origin)).both
    (Fields.defaulted "pointer" false Json.asBool)
  |>.map fun (kind, pointer) => ⟨kind, pointer⟩

def ofJson (origin : Origin) : Json → Read Operand :=
  (fields origin).read origin

end Operand

namespace PostLoad

def toJson : PostLoad → Json
  | none => .str "none"
  | increment => .str "increment"
  | decrement => .str "decrement"
  | addSigned d => .obj [("add_signed", .int d.toInt)]

def ofJson (origin : Origin) : Json → Read PostLoad :=
  Json.asVariant origin fun tag payload =>
    if tag = "none" then (fun _ => none) <$> Json.asNothing origin payload
    else if tag = "increment" then (fun _ => increment) <$> Json.asNothing origin payload
    else if tag = "decrement" then (fun _ => decrement) <$> Json.asNothing origin payload
    else if tag = "add_signed" then addSigned <$> Json.asPayload Json.asInt8 payload
    else .error .shape

end PostLoad

namespace Operation

def toJson (o : Operation) : Json :=
  .obj (("category", Named.toJson o.category) ::
    match o with
    | arithmetic8 op lhs rhs | arithmetic16 op lhs rhs =>
      [("op", Named.toJson op), ("lhs", Json.ofOption Operand.toJson lhs),
        ("rhs", Json.ofOption Operand.toJson rhs)]
    | bitwise op bit operand =>
      [("op", Named.toJson op), ("bit", Json.ofOption (fun b => .nat (UInt8.toNat b)) bit),
        ("operand", Json.ofOption Operand.toJson operand)]
    | load dst src postLoad =>
      [("dst", Json.ofOption Operand.toJson dst), ("src", Json.ofOption Operand.toJson src),
        ("post_load", postLoad.toJson)]
    | jump kind condition target =>
      [("kind", Named.toJson kind), ("condition", Json.ofOption Named.toJson condition),
        ("target", Json.ofOption Operand.toJson target)]
    | rotate op operand =>
      [("op", Named.toJson op), ("operand", Json.ofOption Operand.toJson operand)]
    | control op => [("op", Named.toJson op)])

/-- The members that go with a category. -/
def fields : Category → Fields Operation
  | .arithmetic8 =>
    (((Fields.required "op" (Named.ofJson .held)).both
      (Fields.optional "lhs" (Operand.ofJson .held))).both
      (Fields.optional "rhs" (Operand.ofJson .held)))
    |>.map fun ((op, lhs), rhs) => arithmetic8 op lhs rhs
  | .arithmetic16 =>
    (((Fields.required "op" (Named.ofJson .held)).both
      (Fields.optional "lhs" (Operand.ofJson .held))).both
      (Fields.optional "rhs" (Operand.ofJson .held)))
    |>.map fun ((op, lhs), rhs) => arithmetic16 op lhs rhs
  | .bitwise =>
    (((Fields.required "op" (Named.ofJson .held)).both
      (Fields.optional "bit" Json.asUInt8)).both
      (Fields.optional "operand" (Operand.ofJson .held)))
    |>.map fun ((op, bit), operand) => bitwise op bit operand
  | .load =>
    (((Fields.optional "dst" (Operand.ofJson .held)).both
      (Fields.optional "src" (Operand.ofJson .held))).both
      (Fields.defaulted "post_load" .none (PostLoad.ofJson .held)))
    |>.map fun ((dst, src), postLoad) => load dst src postLoad
  | .jump =>
    (((Fields.required "kind" (Named.ofJson .held)).both
      (Fields.optional "condition" (Named.ofJson .held))).both
      (Fields.optional "target" (Operand.ofJson .held)))
    |>.map fun ((kind, condition), target) => jump kind condition target
  | .rotate =>
    ((Fields.required "op" (Named.ofJson .held)).both
      (Fields.optional "operand" (Operand.ofJson .held)))
    |>.map fun (op, operand) => rotate op operand
  | .control =>
    (Fields.required "op" (Named.ofJson .held)).map control

/-- The category of a member `category`. -/
def categoryOf (v : Json) : Read Category := do
  match Named.find? (← v.asString) with
  | some c => .ok c
  | none => .error .shape

/-- Takes the category out of the members and holds the others back, in
reverse. -/
def sortMember (draft : Option Category × List (String × Json)) (member : String × Json) :
    Read (Option Category × List (String × Json)) :=
  if member.1 = "category" then
    match draft.1 with
    | some _ => .error .shape
    | none => (fun c => (some c, draft.2)) <$> categoryOf member.2
  else
    (fun v => (draft.1, (member.1, v) :: draft.2)) <$> member.2.hold

def readMembers (members : List (String × Json)) : Read Operation := do
  match ← members.foldlM sortMember (none, []) with
  | (none, _) => .error .shape
  | (some c, others) => (fields c).readMembers others.reverse

/-- Reads the items of an array that stands for an operation, its category
first. -/
def readItems : List Json → Read Operation
  | [] => .error .shape
  | v :: vs => do
    let c ← categoryOf v
    (fields c).readItems .held (← vs.mapM Json.hold)

def ofJson : Json → Read Operation
  | .obj members => readMembers members
  | .cut members _ => do
    let _ ← members.foldlM sortMember (none, [])
    .error .text
  | .arr items => readItems items
  | v => .error v.mismatch

end Operation

namespace Descriptor

def toJson (d : Descriptor) : Json :=
  .obj [("machine_code", .nat d.machineCode.toNat), ("byte_length", .nat d.byteLength.toNat),
    ("duration", .nat d.duration.toNat), ("params", d.operation.toJson)]

def fields : Fields Descriptor :=
  ((((Fields.required "machine_code" Json.asUInt32).both
    (Fields.required "byte_length" Json.asUInt8)).both
    (Fields.required "duration" Json.asUInt8)).both
    (Fields.required "params" Operation.ofJson))
  |>.map fun (((machineCode, byteLength), duration), operation) =>
    ⟨machineCode, byteLength, duration, operation⟩

def ofJson : Json → Read Descriptor :=
  fields.read .streamed

end Descriptor

namespace InstructionEntry

def fields : Fields InstructionEntry :=
  (Fields.required "instruction" Json.asString).both
    (Fields.required "descriptor" Descriptor.ofJson)
  |>.map fun (instruction, descriptor) => ⟨instruction, descriptor⟩

def ofJson : Json → Read InstructionEntry :=
  fields.read .streamed

/-- Reads a descriptor source: an object whose member `instructions` lists the
entries. -/
def listOfJson : Json → Read (List InstructionEntry) :=
  (Fields.required "instructions" (Json.asList ofJson)).read .streamed

end InstructionEntry

end GoldenTrace
