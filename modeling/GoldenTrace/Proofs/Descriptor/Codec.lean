import GoldenTrace.Descriptor.Codec
import GoldenTrace.Proofs.Json.Objects
import GoldenTrace.Proofs.Steps

/-!
# Descriptors read back

Operands, operations and descriptors are read back as they were written. An
operation is read in two goes, so its law has two parts: the category is found
in front of the other members, which are held back unchanged, and the readers
of this category take them.
-/

namespace GoldenTrace

open Json (Origin Read Fields Faithful Within)
open Json.Fields (Takes takes_required takes_defaulted takes_optional)

theorem Named.toJson_ne_null {α : Type} [Named α] (a : α) : Named.toJson a ≠ .null := by
  rw [Named.toJson]
  exact fun h => Json.noConfusion h

/-! ## Operands -/

namespace Operand

theorem Kind.faithful (origin : Origin) (n : Nat) :
    Faithful (n + 1) Kind.toJson (Kind.ofJson origin) where
  within k := by
    cases k with
    | register8 r => exact Json.within_tagged ((Json.faithful_named origin n).within r) _
    | register16 r => exact Json.within_tagged ((Json.faithful_named origin n).within r) _
    | imm8 v => exact Json.within_tagged ((Json.faithful_uInt8 n).within v) _
    | imm16 v => exact Json.within_tagged ((Json.faithful_uInt16 n).within v) _
    | signedImm8 v => exact Json.within_tagged ((Json.faithful_int8 n).within v) _
  read_write k := by
    cases k <;> refine Json.asVariant_obj ?_ <;> simp only [String.reduceEq, ↓reduceIte]
    case register8 r => exact (Json.faithful_named origin n).payload register8 r
    case register16 r => exact (Json.faithful_named origin n).payload register16 r
    case imm8 v => exact (Json.faithful_uInt8 n).payload imm8 v
    case imm16 v => exact (Json.faithful_uInt16 n).payload imm16 v
    case signedImm8 v => exact (Json.faithful_int8 n).payload signedImm8 v

theorem takes_members (origin : Origin) (n : Nat) (o : Operand) :
    (fields origin).Takes (n + 1) [("kind", o.kind.toJson), ("pointer", .bool o.pointer)] o :=
  ((takes_required (Kind.faithful origin n) "kind" o.kind).both
    (takes_defaulted (Json.faithful_bool (n + 1)) "pointer" false o.pointer) (by simp)).map _

theorem faithful (origin : Origin) (n : Nat) : Faithful (n + 2) toJson (ofJson origin) :=
  Json.Fields.faithful_of_takes origin (takes_members origin n)

theorem toJson_ne_null (o : Operand) : o.toJson ≠ .null := by
  rw [toJson]
  exact fun h => Json.noConfusion h

/-- An operand that may be absent, as a member of an operation. -/
theorem takes_operand (n : Nat) (key : String) (o : Option Operand) :
    (Fields.optional key (ofJson .held)).Takes (n + 2) [(key, Json.ofOption toJson o)] o :=
  takes_optional (faithful .held n) toJson_ne_null key o

end Operand

theorem PostLoad.faithful (origin : Origin) (n : Nat) :
    Faithful (n + 1) PostLoad.toJson (PostLoad.ofJson origin) where
  within p := by
    cases p with
    | none => exact (Json.faithful_string (n + 1)).within _
    | increment => exact (Json.faithful_string (n + 1)).within _
    | decrement => exact (Json.faithful_string (n + 1)).within _
    | addSigned d => exact Json.within_tagged ((Json.faithful_int8 n).within d) _
  read_write p := by
    cases p with
    | none => rfl
    | increment => rfl
    | decrement => rfl
    | addSigned d =>
        refine Json.asVariant_obj ?_
        simp only [String.reduceEq, ↓reduceIte]
        exact (Json.faithful_int8 n).payload addSigned d

/-! ## Operations -/

namespace Operation

/-- The members of an operation behind its category. -/
def members : Operation → List (String × Json)
  | arithmetic8 op lhs rhs | arithmetic16 op lhs rhs =>
    [("op", Named.toJson op), ("lhs", Json.ofOption Operand.toJson lhs),
      ("rhs", Json.ofOption Operand.toJson rhs)]
  | bitwise op bit operand =>
    [("op", Named.toJson op), ("bit", Json.ofOption (fun b => .nat (UInt8.toNat b)) bit),
      ("operand", Json.ofOption Operand.toJson operand)]
  | load dst src postLoad =>
    [("dst", Json.ofOption Operand.toJson dst), ("src", Json.ofOption Operand.toJson src),
      ("post_load", postLoad.toJson)]
  | jump kind condition target =>
    [("kind", Named.toJson kind), ("condition", Json.ofOption Named.toJson condition),
      ("target", Json.ofOption Operand.toJson target)]
  | rotate op operand =>
    [("op", Named.toJson op), ("operand", Json.ofOption Operand.toJson operand)]
  | control op => [("op", Named.toJson op)]

theorem toJson_eq (o : Operation) :
    o.toJson = .obj (("category", Named.toJson o.category) :: o.members) := by
  cases o <;> rfl

/-- The readers of a category take the members of its operations. -/
theorem takes_members (n : Nat) (o : Operation) :
    (fields o.category).Takes (n + 2) o.members o := by
  have hop {α : Type} [Named α] (key : String) (op : α) :
      (Fields.required key (Named.ofJson .held)).Takes (n + 2) [(key, Named.toJson op)] op :=
    takes_required (Json.faithful_named .held (n + 2)) key op
  cases o with
  | arithmetic8 op lhs rhs =>
      exact (((hop "op" op).both (Operand.takes_operand n "lhs" lhs) (by simp)).both
        (Operand.takes_operand n "rhs" rhs) (by simp)).map _
  | arithmetic16 op lhs rhs =>
      exact (((hop "op" op).both (Operand.takes_operand n "lhs" lhs) (by simp)).both
        (Operand.takes_operand n "rhs" rhs) (by simp)).map _
  | bitwise op bit operand =>
      have hbit := takes_optional (Json.faithful_uInt8 (n + 2)) (fun _ => nofun) "bit" bit
      exact (((hop "op" op).both hbit (by simp)).both
        (Operand.takes_operand n "operand" operand) (by simp)).map _
  | load dst src postLoad =>
      have hpost := takes_defaulted (PostLoad.faithful .held (n + 1)) "post_load" .none postLoad
      exact (((Operand.takes_operand n "dst" dst).both
        (Operand.takes_operand n "src" src) (by simp)).both hpost (by simp)).map _
  | jump kind condition target =>
      have hcondition := takes_optional (Json.faithful_named .held (n + 2)) Named.toJson_ne_null
        "condition" condition
      exact (((hop "kind" kind).both hcondition (by simp)).both
        (Operand.takes_operand n "target" target) (by simp)).map _
  | rotate op operand =>
      exact ((hop "op" op).both (Operand.takes_operand n "operand" operand) (by simp)).map _
  | control op => exact (hop "op" op).map _

theorem category_not_mem_keys (c : Category) : "category" ∉ (fields c).keys := by
  cases c <;> simp [fields, Fields.map, Fields.andThen]

theorem sortMember_hold {m : String × Json} (hkey : m.1 ≠ "category")
    (hm : m.2.meaningful = true) (c : Option Category) (held : List (String × Json)) :
    sortMember (c, held) m = .ok (c, m :: held) := by
  rw [sortMember, if_neg hkey, Json.hold, if_pos hm]
  rfl

/-- Members other than the category are held back in reverse. -/
theorem foldlM_sortMember {ms : List (String × Json)}
    (hms : ∀ m ∈ ms, m.1 ≠ "category" ∧ m.2.meaningful = true)
    (c : Option Category) (held : List (String × Json)) :
    ms.foldlM sortMember (c, held) = .ok (c, ms.reverse ++ held) := by
  induction ms generalizing held with
  | nil => rfl
  | cons m ms ih =>
      obtain ⟨⟨hkey, hm⟩, hms⟩ := List.forall_mem_cons.mp hms
      rw [List.foldlM_cons, sortMember_hold hkey hm, List.reverse_cons, List.append_assoc]
      exact ih hms (m :: held)

theorem categoryOf_eq_ok_iff {v : Json} {c : Category} :
    categoryOf v = .ok c ↔ v = Named.toJson c := by
  rw [categoryOf, bind_eq_ok_iff]
  constructor
  · rintro ⟨s, hs, hc⟩
    obtain rfl : v = .str s := by
      cases v <;> cases hs
      rfl
    split at hc
    case h_1 c' hfind =>
      cases hc
      rw [Named.toJson, Named.find?_eq_some_iff.mp hfind]
    case h_2 => cases hc
  · rintro rfl
    refine ⟨Named.name c, rfl, ?_⟩
    rw [Named.find?_eq_some_iff.mpr rfl]

/-- The category is taken out of the members, wherever the others go. -/
theorem sortMember_category (c : Category) (held : List (String × Json)) :
    sortMember (none, held) ("category", Named.toJson c) = .ok (some c, held) := by
  rw [sortMember, if_pos rfl, categoryOf_eq_ok_iff.mpr rfl]
  rfl

theorem ofJson_toJson (o : Operation) : ofJson o.toJson = .ok o := by
  have htakes := takes_members 0 o
  have hmembers : ∀ m ∈ o.members, m.1 ≠ "category" ∧ m.2.meaningful = true := by
    intro m hm
    refine ⟨fun heq => category_not_mem_keys o.category (heq ▸ htakes.known m hm), ?_⟩
    exact (Json.withinMembers_iff.mp htakes.within m hm).meaningful
  have hfold : (("category", Named.toJson o.category) :: o.members).foldlM sortMember
      (none, []) = .ok (some o.category, o.members.reverse) := by
    -- the category comes first, so all other members are held back behind it
    rw [List.foldlM_cons, sortMember_category]
    have hrest := foldlM_sortMember hmembers (some o.category) []
    rw [List.append_nil] at hrest
    exact hrest
  rw [toJson_eq, ofJson, readMembers, hfold]
  show (fields o.category).readMembers o.members.reverse.reverse = .ok o
  rw [List.reverse_reverse]
  exact htakes.readMembers

theorem faithful (n : Nat) : Faithful (n + 3) toJson ofJson where
  within o := by
    rw [toJson_eq]
    exact ⟨(Json.faithful_named .held (n + 2)).within o.category, (takes_members n o).within⟩
  read_write := ofJson_toJson

end Operation

/-! ## Descriptors -/

namespace Descriptor

theorem takes_members (n : Nat) (d : Descriptor) :
    fields.Takes (n + 3)
      [("machine_code", .nat d.machineCode.toNat), ("byte_length", .nat d.byteLength.toNat),
        ("duration", .nat d.duration.toNat), ("params", d.operation.toJson)] d :=
  ((((takes_required (Json.faithful_uInt32 _) "machine_code" d.machineCode).both
    (takes_required (Json.faithful_uInt8 _) "byte_length" d.byteLength) (by simp)).both
    (takes_required (Json.faithful_uInt8 _) "duration" d.duration) (by simp)).both
    (takes_required (Operation.faithful n) "params" d.operation) (by simp)).map _

theorem faithful (n : Nat) : Faithful (n + 4) toJson ofJson :=
  Json.Fields.faithful_of_takes .streamed (takes_members n)

end Descriptor

end GoldenTrace
