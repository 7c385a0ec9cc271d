import GoldenTrace.Command.Codec
import GoldenTrace.Proofs.Json.Objects

/-!
# Commands read back

Target and value of a write are read apart and put together again. That this
gives a write at all is what the width of its value is for.
-/

namespace GoldenTrace

open Json (Origin Read Fields Faithful Within)
open Json.Fields (Takes takes_required)

theorem Target.faithful (n : Nat) : Faithful (n + 1) Target.toJson Target.ofJson where
  within t := by
    cases t with
    | register8 r => exact Json.within_tagged ((Json.faithful_named .streamed n).within r) _
    | register16 r => exact Json.within_tagged ((Json.faithful_named .streamed n).within r) _
    | memory a => exact Json.within_tagged ((Json.faithful_uInt16 n).within a) _
    | flag f => exact Json.within_tagged ((Json.faithful_named .streamed n).within f) _
    | _ => exact (Json.faithful_string (n + 1)).within _
  read_write t := by
    cases t
    case ime | addressBus | dataBus | pc | ir => rfl
    all_goals
      refine Json.asVariant_obj ?_
      simp only [String.reduceEq, ↓reduceIte]
    case register8 r => exact (Json.faithful_named .streamed n).payload register8 r
    case register16 r => exact (Json.faithful_named .streamed n).payload register16 r
    case memory a => exact (Json.faithful_uInt16 n).payload memory a
    case flag f => exact (Json.faithful_named .streamed n).payload flag f

theorem Value.faithful (n : Nat) : Faithful (n + 1) Value.toJson Value.ofJson where
  within v := by
    cases v with
    | byte v => exact Json.within_tagged ((Json.faithful_uInt8 n).within v) _
    | word v => exact Json.within_tagged ((Json.faithful_uInt16 n).within v) _
  read_write v := by
    cases v <;> refine Json.asVariant_obj ?_ <;> simp only [String.reduceEq, ↓reduceIte]
    case byte v => exact (Json.faithful_uInt8 n).payload byte v
    case word v => exact (Json.faithful_uInt16 n).payload word v

namespace Write

theorem takes_members (n : Nat) (w : Write) :
    fields.Takes (n + 1) [("target", w.target.toJson), ("value", w.value.toJson)] w := by
  have htakes := (takes_required (Target.faithful n) "target" w.target).both
    (takes_required (Value.faithful n) "value" w.value) (by simp)
  refine htakes.andThen ?_
  simp only [of?_target_value]

theorem faithful (n : Nat) : Faithful (n + 2) toJson ofJson :=
  Json.Fields.faithful_of_takes .streamed (takes_members n)

end Write

theorem Command.faithful (n : Nat) : Faithful (n + 3) Command.toJson Command.ofJson where
  within c := by
    cases c with
    | write w => exact Json.within_tagged ((Write.faithful n).within w) _
    | halt => exact (Json.faithful_string (n + 3)).within _
    | suspend s => exact Json.within_tagged ((Json.faithful_named .streamed (n + 2)).within s) _
  read_write c := by
    cases c with
    | write w =>
        refine Json.asVariant_obj ?_
        rw [if_pos rfl]
        exact (Write.faithful n).payload write w
    | halt => rfl
    | suspend s =>
        refine Json.asVariant_obj ?_
        simp only [String.reduceEq, ↓reduceIte]
        exact (Json.faithful_named .streamed n).payload suspend s

theorem Queue.faithful (n : Nat) : Faithful (n + 4) Queue.toJson Queue.ofJson :=
  (Command.faithful n).list

end GoldenTrace
