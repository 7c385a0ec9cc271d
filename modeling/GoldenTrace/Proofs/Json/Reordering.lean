import GoldenTrace.Named
import GoldenTrace.Proofs.Steps
import Mathlib.Data.List.Perm.Basic

/-!
# Members in another order

A value may be written with the members of its objects in another order, at any depth. A reader
is stable if it takes all such values for the same. The laws of this module follow the readers of
single values, among which only an alternative looks into an object: its one member leaves no
order to change.
-/

namespace GoldenTrace.Json

/-- One object within a value has its members in another order. -/
inductive Reorders : Json → Json → Prop
  | object {ms ns : List (String × Json)} (h : ms.Perm ns) : Reorders (.obj ms) (.obj ns)
  | member {before after : List (String × Json)} {k : String} {v w : Json} (h : Reorders v w) :
      Reorders (.obj (before ++ (k, v) :: after)) (.obj (before ++ (k, w) :: after))
  | item {before after : List Json} {v w : Json} (h : Reorders v w) :
      Reorders (.arr (before ++ v :: after)) (.arr (before ++ w :: after))

/-! ## Tests of a whole value -/

/-- A test that a container passes if its contents do, and that every value of JSON passes. -/
structure Throughout (test : Json → Bool) : Prop where
  arr : ∀ items, test (.arr items) = items.all test
  obj : ∀ ms, test (.obj ms) = ms.all fun m => test m.2
  of_meaningful : ∀ v, v.meaningful = true → test v = true

theorem meaningfulItems_eq (items : List Json) : meaningfulItems items = items.all meaningful := by
  induction items with
  | nil => rfl
  | cons v vs ih => rw [meaningfulItems, List.all_cons, ih]

theorem meaningfulMembers_eq (ms : List (String × Json)) :
    meaningfulMembers ms = ms.all fun m => m.2.meaningful := by
  induction ms with
  | nil => rfl
  | cons m ms ih => rw [meaningfulMembers, List.all_cons, ih]

theorem passableItems_eq (items : List Json) : passableItems items = items.all passable := by
  induction items with
  | nil => rfl
  | cons v vs ih => rw [passableItems, List.all_cons, ih]

theorem passableMembers_eq (ms : List (String × Json)) :
    passableMembers ms = ms.all fun m => m.2.passable := by
  induction ms with
  | nil => rfl
  | cons m ms ih => rw [passableMembers, List.all_cons, ih]

mutual

/-- What has a value in every part is JSON throughout. -/
theorem passable_of_meaningful : ∀ v : Json, v.meaningful = true → v.passable = true
  | .null, _ => rfl
  | .bool _, _ => rfl
  | .int _, _ => rfl
  | .real _, _ => rfl
  | .str _, _ => rfl
  | .arr vs, h => passableItems_of_meaningful vs h
  | .obj ms, h => passableMembers_of_meaningful ms h

theorem passableItems_of_meaningful :
    ∀ vs : List Json, meaningfulItems vs = true → passableItems vs = true
  | [], _ => rfl
  | v :: vs, h => by
      rw [meaningfulItems, Bool.and_eq_true] at h
      rw [passableItems, passable_of_meaningful v h.1, passableItems_of_meaningful vs h.2]
      rfl

theorem passableMembers_of_meaningful :
    ∀ ms : List (String × Json), meaningfulMembers ms = true → passableMembers ms = true
  | [], _ => rfl
  | (_, v) :: ms, h => by
      rw [meaningfulMembers, Bool.and_eq_true] at h
      rw [passableMembers, passable_of_meaningful v h.1, passableMembers_of_meaningful ms h.2]
      rfl

end

theorem throughout_meaningful : Throughout meaningful where
  arr items := meaningfulItems_eq items
  obj ms := meaningfulMembers_eq ms
  of_meaningful _ h := h

theorem throughout_passable : Throughout passable where
  arr items := passableItems_eq items
  obj ms := passableMembers_eq ms
  of_meaningful := passable_of_meaningful

theorem Throughout.reorders {test : Json → Bool} (ht : Throughout test) {v w : Json}
    (h : Reorders v w) : test v = test w := by
  induction h with
  | object h => rw [ht.obj, ht.obj, h.all_eq]
  | member _ ih => simp only [ht.obj, List.all_append, List.all_cons, ih]
  | item _ ih => simp only [ht.arr, List.all_append, List.all_cons, ih]

/-! ## Stable readers -/

section

variable {α β : Type}

/-- A reader takes a second value for what it takes a first for. -/
def Follows (read : Json → Read α) (v w : Json) : Prop :=
  ∀ a, read v = .ok a → read w = .ok a

/-- A reader to which the order of members is all one. -/
def Stable (read : Json → Read α) : Prop :=
  ∀ v w, Reorders v w → Follows read v w

theorem Follows.map {read : Json → Read α} {v w : Json} (h : Follows read v w) (g : α → β) :
    Follows (fun x => g <$> read x) v w := by
  intro b hb
  obtain ⟨a, ha, rfl⟩ := map_eq_ok_iff.mp hb
  exact map_eq_ok_iff.mpr ⟨a, h a ha, rfl⟩

theorem Stable.map {read : Json → Read α} (h : Stable read) (g : α → β) :
    Stable fun v => g <$> read v :=
  fun v w hvw => (h v w hvw).map g

/-! Numbers, truth values and texts are no containers. -/

theorem stable_asInt (low high : Int) : Stable (asInt low high) := by
  intro v w hvw a ha
  cases hvw <;> cases ha

theorem stable_asUInt8 : Stable asUInt8 :=
  (stable_asInt 0 0x100).map _

theorem stable_asUInt16 : Stable asUInt16 :=
  (stable_asInt 0 0x10000).map _

theorem stable_asUInt32 : Stable asUInt32 :=
  (stable_asInt 0 0x100000000).map _

theorem stable_asInt8 : Stable asInt8 :=
  (stable_asInt (-0x80) 0x80).map _

theorem stable_asBool : Stable asBool := by
  intro v w hvw a ha
  cases hvw <;> cases ha

theorem Reorders.ne_null {v w : Json} (h : Reorders v w) : v ≠ .null ∧ w ≠ .null := by
  cases h <;> exact ⟨Json.noConfusion, Json.noConfusion⟩

/-- What is there is read in the same way where it may be absent. -/
theorem Follows.option {read : Json → Read α} {v w : Json} (h : Follows read v w)
    (hnull : v ≠ .null ∧ w ≠ .null) : Follows (asOption read) v w := by
  intro a ha
  rw [asOption] at ha ⊢
  · exact h.map some a ha
  · exact hnull.2
  · exact hnull.1

theorem Stable.option {read : Json → Read α} (h : Stable read) : Stable (asOption read) :=
  fun v w hvw => (h v w hvw).option hvw.ne_null

theorem asOption_eq_ok {read : Json → Read α} {v : Json} {a : Option α}
    (h : asOption read v = .ok a) : v = .null ∨ ∃ b, read v = .ok b := by
  by_cases hnull : v = .null
  · exact .inl hnull
  · rw [asOption, map_eq_ok_iff] at h
    · obtain ⟨b, hb, -⟩ := h
      exact .inr ⟨b, hb⟩
    · exact hnull

theorem stable_error (fault : Fault) : Stable fun _ => (.error fault : Read α) :=
  fun _ _ _ _ ha => nomatch ha

theorem Stable.ite {read read' : Json → Read α} (h : Stable read) (h' : Stable read') (p : Prop)
    [Decidable p] : Stable fun v => if p then read v else read' v := by
  split
  case isTrue => exact h
  case isFalse => exact h'

/-! ## Alternatives -/

variable {origin : Origin} {read : String → Option Json → Read α}

/-- An object that stands for an alternative has one member. -/
theorem asVariant_obj_eq_ok_iff {ms : List (String × Json)} {a : α} :
    asVariant origin read (.obj ms) = .ok a ↔ ∃ m, ms = [m] ∧ read m.1 (some m.2) = .ok a := by
  match ms with
  | [] => cases origin <;> simp [asVariant]
  | [m] => cases hm : read m.1 (some m.2) <;> simp [asVariant, hm]
  | m :: n :: ms =>
    cases hm : read m.1 (some m.2) <;> cases origin <;> simp [asVariant, hm]

theorem stable_asVariant (h : ∀ tag, Stable fun v => read tag (some v)) :
    Stable (asVariant origin read) := by
  intro v w hvw a ha
  cases hvw with
  | object hperm =>
      obtain ⟨m, rfl, -⟩ := asVariant_obj_eq_ok_iff.mp ha
      rwa [← List.singleton_perm.mp hperm]
  | member hvw =>
      obtain ⟨m, hms, hm⟩ := asVariant_obj_eq_ok_iff.mp ha
      obtain ⟨rfl, hms⟩ | ⟨-, hms⟩ := List.append_eq_singleton_iff.mp hms
      · obtain ⟨rfl, rfl⟩ := List.cons.inj hms
        exact asVariant_obj_eq_ok_iff.mpr ⟨_, rfl, h _ _ _ hvw a hm⟩
      · cases hms
  | item => cases origin <;> cases ha

theorem stable_asNothing : Stable fun v => asNothing origin (some v) := by
  intro v w hvw a ha
  cases hvw with
  | @object ms ns hperm =>
      cases ms with
      | nil =>
          obtain rfl := hperm.nil_eq
          exact ha
      | cons m ms => cases ha
  | @member before => cases before <;> cases ha
  | item => cases ha

theorem stable_asName (find : String → Option α) : Stable (asName origin find) := by
  refine stable_asVariant fun tag => ?_
  intro v w hvw a ha
  cases hfind : find tag with
  | none =>
      rw [hfind] at ha
      cases ha
  | some b =>
      rw [hfind] at ha
      exact stable_asNothing.map (fun _ => b) v w hvw a ha

theorem stable_named [Named α] (origin : Origin) : Stable (Named.ofJson origin : Json → Read α) :=
  stable_asName Named.find?

/-- An object has one member. -/
def Single : Json → Prop
  | .obj ms => ms.length = 1
  | _ => True

theorem single_of_asVariant {v : Json} {a : α} (h : asVariant origin read v = .ok a) :
    v.Single := by
  cases v with
  | obj ms =>
      obtain ⟨m, rfl, -⟩ := asVariant_obj_eq_ok_iff.mp h
      rfl
  | _ => trivial

theorem single_of_named [Named α] {v : Json} {a : α} (h : Named.ofJson origin v = .ok a) :
    v.Single := by
  rw [Named.ofJson, asName] at h
  exact single_of_asVariant h

end

end GoldenTrace.Json
