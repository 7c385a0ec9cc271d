import GoldenTrace.Named
import GoldenTrace.Proofs.Json.Lexing
import Mathlib.Algebra.Group.Int.Defs

/-!
# Faithful writers and readers

A writer and a reader of the same type belong together if the reader makes of
every written value what was written. Only values that a text holds exactly
count, so the depth of what is written is bounded along with it. The laws of
this module follow the readers: one for each way to put readers together.
-/

namespace GoldenTrace

namespace Named

variable {α : Type} [Named α]

theorem find?_eq_some_iff {s : String} {a : α} : find? s = some a ↔ s = name a := by
  constructor
  · intro h
    have hname := List.find?_some (p := fun b : α => name b == s) h
    exact (beq_iff_eq.mp hname).symm
  · rintro rfl
    exact find?_name a

theorem toJson_injective {a b : α} (h : toJson a = toJson b) : a = b := by
  have ha : find? (name a) = some a := find?_eq_some_iff.mpr rfl
  rw [find?_eq_some_iff.mpr (Json.str.inj h)] at ha
  exact (Option.some.inj ha).symm

end Named

namespace Json

/-- What `write` makes of a value is at most `n` levels deep, and `read` takes
it for this value again. -/
structure Faithful {α : Type} (n : Nat) (write : α → Json) (read : Json → Read α) : Prop where
  within : ∀ a, Within n (write a)
  read_write : ∀ a, read (write a) = .ok a

theorem withinMembers_iff {n : Nat} {ms : List (String × Json)} :
    WithinMembers n ms ↔ ∀ m ∈ ms, Within n m.2 := by
  induction ms with
  | nil => simp [WithinMembers]
  | cons m ms ih => rw [WithinMembers, ih, List.forall_mem_cons]

theorem withinMembers_append {n : Nat} {ms ns : List (String × Json)}
    (hm : WithinMembers n ms) (hn : WithinMembers n ns) : WithinMembers n (ms ++ ns) := by
  rw [withinMembers_iff] at hm hn ⊢
  intro m hmem
  rcases List.mem_append.mp hmem with h | h
  · exact hm m h
  · exact hn m h

mutual

/-- What a text holds exactly has a value in every part. -/
theorem Within.meaningful {n : Nat} : ∀ v : Json, Within n v → v.meaningful = true
  | .null, _ => rfl
  | .bool _, _ => rfl
  | .str _, _ => rfl
  | .int _, _ => rfl
  | .arr vs, hv => by
      cases n with
      | zero => exact hv.elim
      | succ n => exact WithinItems.meaningful vs hv
  | .obj ms, hv => by
      cases n with
      | zero => exact hv.elim
      | succ n => exact WithinMembers.meaningful ms hv
  | .real _, hv => by cases n <;> exact hv.elim
  | .valueless, hv => by cases n <;> exact hv.elim
  | .cut _ _, hv => by cases n <;> exact hv.elim
  | .broken, hv => by cases n <;> exact hv.elim

theorem WithinItems.meaningful {n : Nat} :
    ∀ vs : List Json, WithinItems n vs → meaningfulItems vs = true
  | [], _ => rfl
  | v :: vs, hv => by
      rw [meaningfulItems, Within.meaningful v hv.1, WithinItems.meaningful vs hv.2]
      rfl

theorem WithinMembers.meaningful {n : Nat} :
    ∀ ms : List (String × Json), WithinMembers n ms → meaningfulMembers ms = true
  | [], _ => rfl
  | (_, v) :: ms, hv => by
      rw [meaningfulMembers, Within.meaningful v hv.1, WithinMembers.meaningful ms hv.2]
      rfl

end

/-! ## Numbers, truth values and texts -/

/-- A type whose values stand for integers of a range, all of which a text holds
exactly. -/
theorem faithful_asInt {α : Type} (toInt : α → Int) (ofInt : Int → α) {low high : Int}
    (hmem : ∀ a, low ≤ toInt a ∧ toInt a < high) (hof : ∀ a, ofInt (toInt a) = a)
    (hrange : -2 ^ 53 < low ∧ high ≤ 2 ^ 53) (n : Nat) :
    Faithful n (fun a => .int (toInt a)) (fun v => ofInt <$> v.asInt low high) where
  within a := by
    have ha := hmem a
    simp only [Within]
    omega
  read_write a := by
    rw [asInt, if_pos (hmem a)]
    exact congrArg Except.ok (hof a)

theorem faithful_uInt8 (n : Nat) : Faithful n (fun a : UInt8 => .nat a.toNat) asUInt8 :=
  faithful_asInt (fun a : UInt8 => (a.toNat : Int)) (fun m => UInt8.ofNat m.toNat)
    (fun a => ⟨Int.natCast_nonneg _, Int.ofNat_lt.mpr a.toNat_lt⟩) (fun _ => UInt8.ofNat_toNat)
    (by decide) n

theorem faithful_uInt16 (n : Nat) : Faithful n (fun a : UInt16 => .nat a.toNat) asUInt16 :=
  faithful_asInt (fun a : UInt16 => (a.toNat : Int)) (fun m => UInt16.ofNat m.toNat)
    (fun a => ⟨Int.natCast_nonneg _, Int.ofNat_lt.mpr a.toNat_lt⟩) (fun _ => UInt16.ofNat_toNat)
    (by decide) n

theorem faithful_uInt32 (n : Nat) : Faithful n (fun a : UInt32 => .nat a.toNat) asUInt32 :=
  faithful_asInt (fun a : UInt32 => (a.toNat : Int)) (fun m => UInt32.ofNat m.toNat)
    (fun a => ⟨Int.natCast_nonneg _, Int.ofNat_lt.mpr a.toNat_lt⟩) (fun _ => UInt32.ofNat_toNat)
    (by decide) n

theorem faithful_int8 (n : Nat) : Faithful n (fun a : Int8 => .int a.toInt) asInt8 :=
  faithful_asInt Int8.toInt Int8.ofInt (fun a => ⟨a.le_toInt, a.toInt_lt⟩) Int8.ofInt_toInt
    (by decide) n

theorem faithful_bool (n : Nat) : Faithful n Json.bool asBool where
  within _ := by simp [Within]
  read_write _ := rfl

theorem faithful_string (n : Nat) : Faithful n Json.str asString where
  within _ := by simp [Within]
  read_write _ := rfl

/-! ## Lists and values that may be absent -/

section

variable {α : Type} {n : Nat} {write : α → Json} {read : Json → Read α}

theorem mapM_read (h : Faithful n write read) (as : List α) :
    (as.map write).mapM read = .ok as := by
  induction as with
  | nil => rfl
  | cons a as ih =>
      rw [List.map_cons, List.mapM_cons, h.read_write, ih]
      rfl

theorem Faithful.list (h : Faithful n write read) :
    Faithful (n + 1) (fun as => .arr (as.map write)) (asList read) where
  within as := by
    rw [Within, withinItems_iff]
    intro v hv
    obtain ⟨a, -, rfl⟩ := List.mem_map.mp hv
    exact h.within a
  read_write as := mapM_read h as

/-- Absence and presence can be told apart if no value is written as `null`. -/
theorem Faithful.option (h : Faithful n write read) (hnull : ∀ a, write a ≠ .null) :
    Faithful n (ofOption write) (asOption read) where
  within
    | none => by simp [ofOption, Within]
    | some a => h.within a
  read_write
    | none => rfl
    | some a => by
        -- what is written is not `null`, so the second equation of the reader applies
        rw [ofOption, asOption, h.read_write]
        · rfl
        · exact fun heq => hnull a heq

end

/-! ## Alternatives -/

section

variable {α : Type} {origin : Origin} {read : String → Option Json → Read α}

theorem asVariant_obj {tag : String} {v : Json} {a : α} (h : read tag (some v) = .ok a) :
    asVariant origin read (.obj [(tag, v)]) = .ok a := by
  simp only [asVariant, h]

/-- What comes with a name is read back, and the alternative with it. -/
theorem Faithful.payload {β : Type} {n : Nat} {write : β → Json} {readPayload : Json → Read β}
    (h : Faithful n write readPayload) (make : β → α) (b : β) :
    make <$> asPayload readPayload (some (write b)) = .ok (make b) := by
  rw [asPayload, h.read_write]
  rfl

theorem within_tagged {n : Nat} {v : Json} (h : Within n v) (tag : String) :
    Within (n + 1) (.obj [(tag, v)]) :=
  ⟨h, trivial⟩

end

/-- The alternatives of a list stand as their names. -/
theorem faithful_named {α : Type} [Named α] (origin : Origin) (n : Nat) :
    Faithful n (Named.toJson : α → Json) (Named.ofJson origin) where
  within _ := by simp [Named.toJson, Within]
  read_write a := by
    have hfind : Named.find? (Named.name a) = some a := Named.find?_eq_some_iff.mpr rfl
    simp only [Named.toJson, Named.ofJson, asName, asVariant, hfind]
    rfl

end Json

end GoldenTrace
