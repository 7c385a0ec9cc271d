import GoldenTrace.Proofs.Descriptor.Codec
import GoldenTrace.Proofs.Json.Edits
import Mathlib.Logic.Relation

/-!
# The presentation of descriptors

Much of how a descriptor is written does not change what it says: the order of members at any
depth, members with keys that nothing asks for, operands that are given as `null`, and what is the
default. An operation is read in two goes, so its members are split first into the category and
the others, and the laws of the readers of this category apply to the others. An alternative
written as an object leaves no such freedom: it has one member.
-/

namespace GoldenTrace

open Json (Origin Read Fields Follows Stable Reorders Holds Single Throughout)
open Json.Fields (insensitive_one)

/-! ## Operands -/

namespace Operand

/-- What stands for an alternative in the kind of an operand: the kind, and the register in it. -/
inductive Kind.Alternative : Json → Json → Prop
  | kind (v : Json) : Alternative v v
  | register {ms : List (String × Json)} {tag : String} {x : Json} (h : (tag, x) ∈ ms)
      (htag : tag = "register8" ∨ tag = "register16") : Alternative (.obj ms) x

theorem Kind.stable (origin : Origin) : Stable (Kind.ofJson origin) :=
  Json.stable_asVariant fun _ =>
    .ite ((Json.stable_named origin).map register8)
      (.ite ((Json.stable_named origin).map register16)
        (.ite (Json.stable_asUInt8.map imm8)
          (.ite (Json.stable_asUInt16.map imm16)
            (.ite (Json.stable_asInt8.map signedImm8) (Json.stable_error .shape) _) _) _) _) _

theorem Kind.single {origin : Origin} {v x : Json} {k : Kind} (h : Kind.ofJson origin v = .ok k)
    (hx : Alternative v x) : x.Single := by
  cases hx with
  | kind => exact Json.single_of_asVariant h
  | register hmem htag =>
      obtain ⟨m, rfl, hm⟩ := Json.asVariant_obj_eq_ok_iff.mp h
      obtain rfl := List.mem_singleton.mp hmem
      rcases htag with rfl | rfl <;>
      · simp only [String.reduceEq, ↓reduceIte, map_eq_ok_iff] at hm
        obtain ⟨r, hr, -⟩ := hm
        exact Json.single_of_named hr

/-- An operand that is no pointer need not say so. -/
def Idle (k : String) (v : Json) : Prop :=
  k = "pointer" ∧ v = .bool false

/-- One edit of the presentation of an operand. -/
def Edit : Json → Json → Prop :=
  Json.Edit ["kind", "pointer"] Idle fun _ _ _ => False

/-- What stands for an alternative in an operand. -/
def Alternative (v x : Json) : Prop :=
  ∃ kind, Holds ["kind", "pointer"] v "kind" kind ∧ Kind.Alternative kind x

def Due (k : String) (v : Json) : Prop :=
  k = "kind" → ∀ x, Kind.Alternative v x → x.Single

theorem insensitive_fields (origin : Origin) :
    (fields origin).Insensitive Idle (fun _ _ _ => False) Due := by
  refine Fields.Insensitive.map (Fields.Insensitive.both ?kind ?pointer) _
  case kind =>
    refine insensitive_one (Kind.stable origin) ?_ nofun nofun ?_
    · rintro v a ⟨hkey, -⟩
      exact absurd hkey (by decide)
    · intro v a ha _ x hx
      exact Kind.single ha hx
  case pointer =>
    refine insensitive_one Json.stable_asBool ?_ nofun nofun ?_
    · rintro v a ⟨-, rfl⟩ ha
      cases ha
      rfl
    · intro v a _ hkey
      exact absurd hkey (by decide)

variable {origin : Origin} {v w x : Json}

theorem stable (origin : Origin) : Stable (ofJson origin) :=
  (insensitive_fields origin).stable origin

theorem Edit.follows (h : Edit v w) (origin : Origin) : Follows (ofJson origin) v w :=
  (insensitive_fields origin).follows origin h

theorem Edit.keeps {test : Json → Bool} (ht : Throughout test) (h : Edit v w)
    (hv : test v = true) : test w = true :=
  ht.edit nofun h hv

theorem single {o : Operand} (h : ofJson origin v = .ok o) (hx : Alternative v x) : x.Single := by
  obtain ⟨kind, hkind, hx⟩ := hx
  exact (insensitive_fields origin).due_of_holds h hkind (List.mem_cons_self ..) rfl x hx

end Operand

theorem PostLoad.stable (origin : Origin) : Stable (PostLoad.ofJson origin) :=
  Json.stable_asVariant fun _ =>
    .ite (Json.stable_asNothing.map fun _ => none)
      (.ite (Json.stable_asNothing.map fun _ => increment)
        (.ite (Json.stable_asNothing.map fun _ => decrement)
          (.ite (Json.stable_asInt8.map addSigned) (Json.stable_error .shape) _) _) _) _

namespace Operation

/-! ## Members of an operation -/

/-- The keys of operands. -/
def operandKeys : List String :=
  ["lhs", "rhs", "operand", "dst", "src", "target"]

/-- The keys of what may be absent. -/
def optionalKeys : List String :=
  "bit" :: "condition" :: operandKeys

/-- The keys of alternatives. -/
def alternativeKeys : List String :=
  ["op", "kind", "condition", "post_load"]

/-- What is absent need not be given as `null`, and that nothing follows a load need not be said. -/
def Idle (k : String) (v : Json) : Prop :=
  k ∈ optionalKeys ∧ v = .null ∨ k = "post_load" ∧ v = .str "none"

def Change (k : String) (v w : Json) : Prop :=
  k ∈ operandKeys ∧ Operand.Edit v w

def Due (k : String) (v : Json) : Prop :=
  (k ∈ alternativeKeys → v.Single) ∧ (k ∈ operandKeys → ∀ x, Operand.Alternative v x → x.Single)

section

variable {α : Type} {key : String} {absent : Read α} {read : Json → Read α}

theorem passable_of_change (k : String) (v w : Json) (h : Change k v w)
    (hv : v.passable = true) : w.passable = true :=
  h.2.keeps Json.throughout_passable hv

theorem insensitive_operand (hkey : key ∈ operandKeys) :
    (Fields.optional key (Operand.ofJson .held)).Insensitive Idle Change Due := by
  have hother : ∀ k ∈ operandKeys, k ≠ "post_load" ∧ k ∉ alternativeKeys := by decide
  refine insensitive_one (Operand.stable .held).option ?idle ?change passable_of_change ?due
  case idle =>
    rintro v a (⟨-, rfl⟩ | ⟨rfl, -⟩) ha
    · exact ha
    · exact absurd rfl (hother _ hkey).1
  case change => exact fun v w h => (h.2.follows .held).option h.2.ne_null
  case due =>
    intro v a ha
    refine ⟨fun h => absurd h (hother key hkey).2, fun _ x hx => ?_⟩
    rcases Json.asOption_eq_ok ha with rfl | ⟨o, ho⟩
    · obtain ⟨kind, hkind, -⟩ := hx
      exact hkind.elim
    · exact Operand.single ho hx

theorem insensitive_other (hkey : key ∉ operandKeys) (hread : Stable read)
    (hidle : ∀ v a, Idle key v → read v = .ok a → absent = .ok a)
    (hsingle : key ∈ alternativeKeys → ∀ v a, read v = .ok a → v.Single) :
    (Fields.one key absent read).Insensitive Idle Change Due :=
  insensitive_one hread hidle (fun _ _ h => absurd h.1 hkey) passable_of_change
    fun v a ha => ⟨fun h => hsingle h v a ha, fun h => absurd h hkey⟩

theorem insensitive_op [Named α] (hkey : key = "op" ∨ key = "kind") :
    (Fields.required key (Named.ofJson .held : Json → Read α)).Insensitive Idle Change Due := by
  refine insensitive_other ?_ (Json.stable_named .held) ?_ fun _ v a ha =>
    Json.single_of_named ha
  · rcases hkey with rfl | rfl <;> decide
  · rintro v a (⟨h, -⟩ | ⟨h, -⟩) <;> rcases hkey with rfl | rfl <;> exact absurd h (by decide)

theorem insensitive_bit : (Fields.optional "bit" Json.asUInt8).Insensitive Idle Change Due := by
  refine insensitive_other (by decide) Json.stable_asUInt8.option ?_ fun h => absurd h (by decide)
  rintro v a (⟨-, rfl⟩ | ⟨h, -⟩) ha
  · exact ha
  · exact absurd h (by decide)

theorem insensitive_condition :
    (Fields.optional "condition" (Named.ofJson .held : Json → Read Condition)).Insensitive
      Idle Change Due := by
  refine insensitive_other (by decide) (Json.stable_named .held).option ?_ fun _ v a ha => ?_
  · rintro v a (⟨-, rfl⟩ | ⟨h, -⟩) ha
    · exact ha
    · exact absurd h (by decide)
  · rcases Json.asOption_eq_ok ha with rfl | ⟨c, hc⟩
    · trivial
    · exact Json.single_of_named hc

theorem insensitive_postLoad :
    (Fields.defaulted "post_load" .none (PostLoad.ofJson .held)).Insensitive Idle Change Due := by
  refine insensitive_other (by decide) (PostLoad.stable .held) ?_ fun _ v a ha =>
    Json.single_of_asVariant ha
  rintro v a (⟨h, -⟩ | ⟨-, rfl⟩) ha
  · exact absurd h (by decide)
  · exact ha

end

theorem insensitive_fields (c : Category) : (fields c).Insensitive Idle Change Due := by
  cases c with
  | arithmetic8 =>
      exact (((insensitive_op (.inl rfl)).both (insensitive_operand (by decide))).both
        (insensitive_operand (by decide))).map _
  | arithmetic16 =>
      exact (((insensitive_op (.inl rfl)).both (insensitive_operand (by decide))).both
        (insensitive_operand (by decide))).map _
  | bitwise =>
      exact (((insensitive_op (.inl rfl)).both insensitive_bit).both
        (insensitive_operand (by decide))).map _
  | load =>
      exact (((insensitive_operand (by decide)).both (insensitive_operand (by decide))).both
        insensitive_postLoad).map _
  | jump =>
      exact (((insensitive_op (.inr rfl)).both insensitive_condition).both
        (insensitive_operand (by decide))).map _
  | rotate => exact ((insensitive_op (.inl rfl)).both (insensitive_operand (by decide))).map _
  | control => exact (insensitive_op (.inl rfl)).map _

/-! ## The category among the members -/

/-- The members of an operation are its category and others that can be held back. -/
structure Splits (c : Category) (ms others : List (String × Json)) : Prop where
  perm : ms.Perm (("category", Named.toJson c) :: others)
  held : ∀ m ∈ others, m.1 ≠ "category" ∧ m.2.meaningful = true

section

variable {c : Category} {ms ns others : List (String × Json)} {k : String} {v w : Json}
  {o : Operation}

theorem Splits.eq_toJson (h : Splits c ms others) (hmem : ("category", v) ∈ ms) :
    v = Named.toJson c := by
  rcases List.mem_cons.mp (h.perm.mem_iff.mp hmem) with heq | hmem
  · exact (Prod.mk.inj heq).2
  · exact absurd rfl (h.held _ hmem).1

theorem Splits.of_perm (h : Splits c ms others) (hperm : ns.Perm ms) : Splits c ns others :=
  ⟨hperm.trans h.perm, h.held⟩

theorem Splits.cons (h : Splits c ms others) (hk : k ≠ "category") (hv : v.meaningful = true) :
    Splits c ((k, v) :: ms) ((k, v) :: others) where
  perm := (h.perm.cons _).trans (List.Perm.swap ..)
  held := List.forall_mem_cons.mpr ⟨⟨hk, hv⟩, h.held⟩

/-- A member under another key is one of the others. -/
theorem Splits.exists_of_cons (h : Splits c ((k, v) :: ms) others) (hk : k ≠ "category") :
    ∃ others', others.Perm ((k, v) :: others') ∧ v.meaningful = true ∧ Splits c ms others' := by
  have hmem : (k, v) ∈ others := by
    rcases List.mem_cons.mp (h.perm.mem_iff.mp List.mem_cons_self) with heq | hmem
    · exact absurd (Prod.mk.inj heq).1 hk
    · exact hmem
  obtain ⟨before, after, rfl⟩ := List.append_of_mem hmem
  have hperm : ms.Perm (("category", Named.toJson c) :: (before ++ after)) := by
    refine List.Perm.cons_inv (a := (k, v)) (h.perm.trans ?_)
    exact (List.perm_middle.cons _).trans (List.Perm.swap ..)
  obtain ⟨hv, hheld⟩ := List.forall_mem_cons.mp fun m hm =>
    h.held m (List.perm_middle.mem_iff.mpr hm)
  exact ⟨before ++ after, List.perm_middle, hv.2, hperm, hheld⟩

/-- A member that is no category goes on top of those that are held back. -/
theorem sortMember_eq_ok_iff {m : String × Json} (hkey : m.1 ≠ "category") {d : Option Category}
    {held : List (String × Json)} {draft : Option Category × List (String × Json)} :
    sortMember (d, held) m = .ok draft ↔ m.2.meaningful = true ∧ draft = (d, m :: held) := by
  rw [sortMember, if_neg hkey, map_eq_ok_iff, Json.hold]
  split
  case isTrue hm => simp [hm, eq_comm]
  case isFalse hm => simp [hm]

/-- Behind the category there is no other. -/
theorem others_of_foldlM {held : List (String × Json)}
    {draft : Option Category × List (String × Json)}
    (h : ms.foldlM sortMember (some c, held) = .ok draft) :
    (∀ m ∈ ms, m.1 ≠ "category" ∧ m.2.meaningful = true) ∧
      draft = (some c, ms.reverse ++ held) := by
  induction ms generalizing held with
  | nil =>
      cases h
      exact ⟨nofun, rfl⟩
  | cons m ms ih =>
      rw [List.foldlM_cons, bind_eq_ok_iff] at h
      obtain ⟨draft', hm, hrest⟩ := h
      by_cases hkey : m.1 = "category"
      · rw [sortMember, if_pos hkey] at hm
        cases hm
      · obtain ⟨hmeaningful, rfl⟩ := (sortMember_eq_ok_iff hkey).mp hm
        obtain ⟨hms, rfl⟩ := ih hrest
        refine ⟨List.forall_mem_cons.mpr ⟨⟨hkey, hmeaningful⟩, hms⟩, ?_⟩
        rw [List.reverse_cons, List.append_assoc, List.singleton_append]

theorem splits_of_foldlM {held held' : List (String × Json)}
    (h : ms.foldlM sortMember (none, held) = .ok (some c, held')) :
    ∃ others, Splits c ms others ∧ held' = others.reverse ++ held := by
  induction ms generalizing held with
  | nil => cases h
  | cons m ms ih =>
      rw [List.foldlM_cons, bind_eq_ok_iff] at h
      obtain ⟨draft, hm, hrest⟩ := h
      by_cases hkey : m.1 = "category"
      · obtain ⟨k, v⟩ := m
        obtain rfl : k = "category" := hkey
        rw [sortMember, if_pos rfl, map_eq_ok_iff] at hm
        obtain ⟨c', hc', rfl⟩ := hm
        obtain rfl := categoryOf_eq_ok_iff.mp hc'
        obtain ⟨hms, heq⟩ := others_of_foldlM hrest
        obtain ⟨hc, rfl⟩ := Prod.mk.inj heq
        obtain rfl := Option.some.inj hc
        exact ⟨ms, ⟨.refl _, hms⟩, rfl⟩
      · obtain ⟨hmeaningful, rfl⟩ := (sortMember_eq_ok_iff hkey).mp hm
        obtain ⟨others, hsplits, rfl⟩ := ih hrest
        refine ⟨m :: others, hsplits.cons hkey hmeaningful, ?_⟩
        rw [List.reverse_cons, List.append_assoc, List.singleton_append]

/-- An operation is read if its members split and the readers of the category take the others. -/
theorem exists_splits (h : readMembers ms = .ok o) :
    ∃ c others, Splits c ms others ∧ (fields c).readMembers others = .ok o := by
  rw [readMembers, bind_eq_ok_iff] at h
  obtain ⟨⟨d, held⟩, hsort, hread⟩ := h
  cases d with
  | none => cases hread
  | some c =>
      obtain ⟨others, hsplits, rfl⟩ := splits_of_foldlM hsort
      change (fields c).readMembers (others.reverse ++ []).reverse = .ok o at hread
      rw [List.append_nil, List.reverse_reverse] at hread
      exact ⟨c, others, hsplits, hread⟩

/-- The order of the members is all one to the readers of the category, and the category may stand
anywhere among them. -/
theorem Splits.readMembers (h : Splits c ms others)
    (hread : (fields c).readMembers others = .ok o) : readMembers ms = .ok o := by
  obtain ⟨before, after, rfl⟩ := List.append_of_mem (h.perm.mem_iff.mpr List.mem_cons_self)
  have hperm : others.Perm (before ++ after) :=
    (List.Perm.cons_inv (List.perm_middle.symm.trans h.perm)).symm
  have hheld : ∀ m ∈ before ++ after, m.1 ≠ "category" ∧ m.2.meaningful = true :=
    fun m hm => h.held m (hperm.mem_iff.mpr hm)
  obtain ⟨hbefore, hafter⟩ := List.forall_mem_append.mp hheld
  have hsort : (before ++ ("category", Named.toJson c) :: after).foldlM sortMember (none, []) =
      .ok (some c, (before ++ after).reverse) := by
    rw [List.foldlM_append, foldlM_sortMember hbefore, List.append_nil, List.reverse_append]
    show List.foldlM sortMember (none, before.reverse) (_ :: after) = _
    rw [List.foldlM_cons, sortMember_category]
    exact foldlM_sortMember hafter (some c) before.reverse
  rw [Operation.readMembers, hsort]
  show (fields c).readMembers (before ++ after).reverse.reverse = .ok o
  rw [List.reverse_reverse]
  exact (insensitive_fields c).readMembers_perm hperm hread

theorem readMembers_perm (hperm : ms.Perm ns) (h : readMembers ms = .ok o) :
    readMembers ns = .ok o := by
  obtain ⟨c, others, hsplits, hread⟩ := exists_splits h
  exact (hsplits.of_perm hperm.symm).readMembers hread

/-! ## Edits of an operation -/

variable {before after : List (String × Json)}

theorem readMembers_add (hmem : ("category", Named.toJson c) ∈ before ++ after)
    (hk : k ∉ "category" :: (fields c).keys) (hv : v.meaningful = true)
    (h : readMembers (before ++ after) = .ok o) :
    readMembers (before ++ (k, v) :: after) = .ok o := by
  have hcategory : k ≠ "category" := List.ne_of_not_mem_cons hk
  obtain ⟨c', others, hsplits, hread⟩ := exists_splits h
  obtain rfl := Named.toJson_injective (hsplits.eq_toJson hmem)
  have hadded := (hsplits.cons hcategory hv).of_perm List.perm_middle
  exact hadded.readMembers ((insensitive_fields c).follows .held (@Json.Edit.add _ Idle Change []
    others k v (List.not_mem_of_not_mem_cons hk) hv) o hread)

theorem readMembers_drop (h : Idle k v) (hread : readMembers (before ++ (k, v) :: after) = .ok o) :
    readMembers (before ++ after) = .ok o := by
  have hcategory : k ≠ "category" := by
    rintro rfl
    rcases h with ⟨h, -⟩ | ⟨h, -⟩ <;> exact absurd h (by decide)
  obtain ⟨c, others, hsplits, hread⟩ := exists_splits hread
  obtain ⟨others', hperm, -, hsplits⟩ :=
    (hsplits.of_perm List.perm_middle.symm).exists_of_cons hcategory
  have hothers := (insensitive_fields c).readMembers_perm hperm hread
  exact hsplits.readMembers ((insensitive_fields c).follows .held (@Json.Edit.drop _ Idle Change []
    others' k v h) o hothers)

theorem readMembers_swap (hcategory : k ≠ "category")
    (hmeaningful : v.meaningful = true → w.meaningful = true)
    (hswaps : ∀ c, (fields c).Swaps k v w)
    (h : readMembers (before ++ (k, v) :: after) = .ok o) :
    readMembers (before ++ (k, w) :: after) = .ok o := by
  obtain ⟨c, others, hsplits, hread⟩ := exists_splits h
  obtain ⟨others', hperm, hv, hsplits⟩ :=
    (hsplits.of_perm List.perm_middle.symm).exists_of_cons hcategory
  have hothers := (insensitive_fields c).readMembers_perm hperm hread
  have hswapped := (hsplits.cons hcategory (hmeaningful hv)).of_perm List.perm_middle
  refine hswapped.readMembers ?_
  show (fields c).readMembers ([] ++ (k, w) :: others') = .ok o
  exact (insensitive_fields c).readMembers_swap (hswaps c) hothers

end

theorem mapM_hold_eq_ok_iff {items items' : List Json} :
    items.mapM Json.hold = .ok items' ↔ (Json.arr items).meaningful = true ∧ items' = items := by
  rw [Json.throughout_meaningful.arr]
  induction items generalizing items' with
  | nil => simp [pure, Except.pure, eq_comm]
  | cons v vs ih =>
      rw [List.mapM_cons, bind_eq_ok_iff, List.all_cons, Bool.and_eq_true]
      simp only [bind_eq_ok_iff, ih, Json.hold]
      constructor
      · rintro ⟨v', hv, vs', ⟨hvs, rfl⟩, heq⟩
        split at hv
        case isTrue hmeaningful =>
          cases hv
          cases heq
          exact ⟨⟨hmeaningful, hvs⟩, rfl⟩
        case isFalse => cases hv
      · rintro ⟨⟨hv, hvs⟩, rfl⟩
        exact ⟨v, if_pos hv, vs, ⟨hvs, rfl⟩, rfl⟩

theorem readItems_eq_ok_iff {v : Json} {items : List Json} {o : Operation} :
    readItems (v :: items) = .ok o ↔ ∃ c, v = Named.toJson c ∧
      (Json.arr items).meaningful = true ∧ (fields c).read .held (.arr items) = .ok o := by
  rw [readItems, bind_eq_ok_iff]
  simp only [bind_eq_ok_iff, mapM_hold_eq_ok_iff, categoryOf_eq_ok_iff]
  constructor
  · rintro ⟨c, hv, _, ⟨hitems, rfl⟩, hread⟩
    exact ⟨c, hv, hitems, hread⟩
  · rintro ⟨c, hv, hitems, hread⟩
    exact ⟨c, hv, items, ⟨hitems, rfl⟩, hread⟩

/-- An operation says its category, as a member or as its first item. -/
def Declares (v : Json) (c : Category) : Prop :=
  Holds ["category"] v "category" (Named.toJson c)

theorem declares_arr_iff {v : Json} {items : List Json} {c : Category} :
    Declares (.arr (v :: items)) c ↔ v = Named.toJson c := by
  simp [Declares, Holds, eq_comm]

/-- One edit of the presentation of an operation. What is unknown to its category may be added. -/
def Edit (v w : Json) : Prop :=
  ∃ c, Declares v c ∧ Json.Edit ("category" :: (fields c).keys) Idle Change v w

theorem keeps_change {test : Json → Bool} (ht : Throughout test) (k : String) (v w : Json)
    (h : Change k v w) (hv : test v = true) : test w = true :=
  h.2.keeps ht hv

theorem Edit.keeps {test : Json → Bool} (ht : Throughout test) {v w : Json} (h : Edit v w)
    (hv : test v = true) : test w = true := by
  obtain ⟨c, -, h⟩ := h
  exact ht.edit (keeps_change ht) h hv

/-- A name is no container. -/
theorem not_reorders_toJson {c : Category} {w : Json} : ¬ Reorders (Named.toJson c) w := by
  intro h
  cases h

theorem stable : Stable ofJson := by
  intro v w hvw o ho
  cases hvw with
  | object hperm => exact readMembers_perm hperm ho
  | @member before after k v w hvw =>
      by_cases hk : k = "category"
      · subst hk
        obtain ⟨c, others, hsplits, -⟩ := exists_splits ho
        obtain rfl := hsplits.eq_toJson (List.mem_append_right before List.mem_cons_self)
        exact absurd hvw not_reorders_toJson
      · refine readMembers_swap hk ?_ (fun c => (insensitive_fields c).reorders hvw k) ho
        rw [Json.throughout_meaningful.reorders hvw]
        exact id
  | @item before after v w hvw =>
      cases before with
      | nil =>
          obtain ⟨c, rfl, -⟩ := readItems_eq_ok_iff.mp ho
          exact absurd hvw not_reorders_toJson
      | cons x before =>
          obtain ⟨c, hx, hitems, hread⟩ := readItems_eq_ok_iff.mp ho
          have hitem : Reorders (.arr (before ++ v :: after)) (.arr (before ++ w :: after)) :=
            .item hvw
          exact readItems_eq_ok_iff.mpr ⟨c, hx,
            (Json.throughout_meaningful.reorders hitem).symm.trans hitems,
            (insensitive_fields c).stable .held _ _ hitem o hread⟩

theorem ne_category_of_change {k : String} {v w : Json} (h : Change k v w) : k ≠ "category" := by
  rintro rfl
  exact absurd h.1 (by decide)

theorem Edit.follows {v w : Json} (h : Edit v w) : Follows ofJson v w := by
  intro o ho
  obtain ⟨c, hc, h⟩ := h
  cases h with
  | reorder h => exact stable v w h o ho
  | add hk hv => exact readMembers_add hc hk hv ho
  | drop h => exact readMembers_drop h ho
  | change h =>
      exact readMembers_swap (ne_category_of_change h)
        (h.2.keeps Json.throughout_meaningful) (fun c => (insensitive_fields c).change h) ho
  | @item before after ks ks' k v w hkeys hlength h =>
      cases before with
      | nil =>
          obtain rfl := List.length_eq_zero_iff.mp hlength
          exact absurd (List.cons.inj hkeys).1.symm (ne_category_of_change h)
      | cons x before =>
          cases ks with
          | nil => cases hlength
          | cons k' ks =>
              have hitem : Json.Edit (fields c).keys Idle Change (.arr (before ++ v :: after))
                  (.arr (before ++ w :: after)) :=
                .item (List.cons.inj hkeys).2 (Nat.succ.inj hlength) h
              obtain ⟨c', hx, hitems, hread⟩ := readItems_eq_ok_iff.mp ho
              obtain rfl := Named.toJson_injective (hx.symm.trans (declares_arr_iff.mp hc))
              have hitems := Json.throughout_meaningful.edit
                (keeps_change Json.throughout_meaningful) hitem hitems
              exact readItems_eq_ok_iff.mpr ⟨c', hx, hitems,
                (insensitive_fields c').follows .held hitem o hread⟩

/-! ## Alternatives of an operation -/

/-- What stands for an alternative in an operation: a member of its own, or a part of an operand. -/
def Alternative (v x : Json) : Prop :=
  ∃ c k y, Declares v c ∧ Holds ("category" :: (fields c).keys) v k y ∧ k ∈ (fields c).keys ∧
    (k ∈ alternativeKeys ∧ x = y ∨ k ∈ operandKeys ∧ Operand.Alternative y x)

theorem exists_holds {v y : Json} {c : Category} {k : String} {o : Operation}
    (h : ofJson v = .ok o) (hc : Declares v c) (hk : k ∈ (fields c).keys)
    (hy : Holds ("category" :: (fields c).keys) v k y) :
    ∃ v', (fields c).read .held v' = .ok o ∧ Holds (fields c).keys v' k y := by
  have hcategory : k ≠ "category" := by
    rintro rfl
    exact category_not_mem_keys c hk
  cases v with
  | obj ms =>
      obtain ⟨c', others, hsplits, hread⟩ := exists_splits h
      obtain rfl := Named.toJson_injective (hsplits.eq_toJson hc)
      refine ⟨.obj others, hread, ?_⟩
      rcases List.mem_cons.mp (hsplits.perm.mem_iff.mp hy) with heq | hmem
      · exact absurd (Prod.mk.inj heq).1 hcategory
      · exact hmem
  | arr items =>
      cases items with
      | nil => cases h
      | cons x items =>
          obtain ⟨c', hx, -, hread⟩ := readItems_eq_ok_iff.mp h
          obtain rfl := Named.toJson_injective (hx.symm.trans (declares_arr_iff.mp hc))
          refine ⟨.arr items, hread, ?_⟩
          rcases List.mem_cons.mp hy with heq | hmem
          · exact absurd (Prod.mk.inj heq).1 hcategory
          · exact hmem
  | _ => exact hy.elim

theorem single {v x : Json} {o : Operation} (h : ofJson v = .ok o) (hx : Alternative v x) :
    x.Single := by
  obtain ⟨c, k, y, hc, hy, hk, hx⟩ := hx
  obtain ⟨v', hread, hy⟩ := exists_holds h hc hk hy
  have hdue := (insensitive_fields c).due_of_holds hread hy hk
  rcases hx with ⟨hkey, rfl⟩ | ⟨hkey, hx⟩
  · exact hdue.1 hkey
  · exact hdue.2 hkey x hx

end Operation

/-! ## Descriptors -/

namespace Descriptor

/-- Nothing of a descriptor may be left out. -/
def Idle (_ : String) (_ : Json) : Prop :=
  False

def Change (k : String) (v w : Json) : Prop :=
  k = "params" ∧ Operation.Edit v w

/-- One edit of the presentation of a descriptor. -/
def Edit : Json → Json → Prop :=
  Json.Edit fields.keys Idle Change

/-- What stands for an alternative in a descriptor. -/
def Alternative (v x : Json) : Prop :=
  ∃ params, Holds fields.keys v "params" params ∧ Operation.Alternative params x

def Due (k : String) (v : Json) : Prop :=
  k = "params" → ∀ x, Operation.Alternative v x → x.Single

theorem passable_of_change (k : String) (v w : Json) (h : Change k v w)
    (hv : v.passable = true) : w.passable = true :=
  h.2.keeps Json.throughout_passable hv

theorem insensitive_number {α : Type} {key : String} {read : Json → Read α} (hread : Stable read)
    (hkey : key ≠ "params") : (Fields.required key read).Insensitive Idle Change Due :=
  insensitive_one hread (fun _ _ h => h.elim) (fun _ _ h => absurd h.1 hkey) passable_of_change
    fun _ _ _ h => absurd h hkey

theorem insensitive_params :
    (Fields.required "params" Operation.ofJson).Insensitive Idle Change Due := by
  refine insensitive_one Operation.stable (fun _ _ h => h.elim) ?change passable_of_change ?due
  case change => exact fun v w h => h.2.follows
  case due =>
    intro v o ho _ x hx
    exact Operation.single ho hx

theorem insensitive_fields : fields.Insensitive Idle Change Due :=
  ((((insensitive_number Json.stable_asUInt32 (by decide)).both
    (insensitive_number Json.stable_asUInt8 (by decide))).both
    (insensitive_number Json.stable_asUInt8 (by decide))).both insensitive_params).map _

theorem ofJson_of_reflTransGen {v w : Json} {d : Descriptor} (hd : ofJson v = .ok d)
    (hw : Relation.ReflTransGen Edit v w) : ofJson w = .ok d := by
  induction hw with
  | refl => exact hd
  | tail _ hedit ih => exact insensitive_fields.follows .streamed hedit d ih

/-- **What a descriptor says does not depend on its presentation.** Any number of edits leave the
descriptor that a value is read as, so every presentation of a written descriptor is read as this
descriptor. A value that has an object of several members in the place of an alternative is none
of a descriptor. -/
theorem ofJson_of_edits :
    (∀ v w d, ofJson v = .ok d → Relation.ReflTransGen Edit v w → ofJson w = .ok d) ∧
    (∀ (d : Descriptor) w, Relation.ReflTransGen Edit d.toJson w → ofJson w = .ok d) ∧
    ∀ v ms, Alternative v (.obj ms) → 2 ≤ ms.length → ∃ fault, ofJson v = .error fault := by
  refine ⟨fun v w d => ofJson_of_reflTransGen, ?written, ?several⟩
  case written => exact fun d w => ofJson_of_reflTransGen ((faithful 0).read_write d)
  case several =>
    intro v ms hms hlength
    cases hread : ofJson v with
    | error fault => exact ⟨fault, rfl⟩
    | ok d =>
        obtain ⟨params, hparams, hms⟩ := hms
        have hdue := insensitive_fields.due_of_holds hread hparams (by decide)
        have hone : ms.length = 1 := hdue rfl _ hms
        omega

/-- A descriptor of an addition with the given parameters. -/
def addition (params : List (String × Json)) : Json :=
  .obj [("machine_code", .int 0x80), ("byte_length", .int 1), ("duration", .int 1),
    ("params", .obj params)]

/-- An operand that is a register, with further members. -/
def register (name : String) (more : List (String × Json)) : Json :=
  .obj (("kind", .obj [("register8", .str name)]) :: more)

/-- The parameters of an addition backwards, with a remark and without saying that `B` is no
pointer, and an addition that is a subtraction as well. -/
theorem ofJson_of_edits_addition :
    ofJson (addition [("rhs", register "B" []), ("lhs", register "A" []), ("op", .str "add"),
        ("category", .str "arithmetic8"), ("remark", .arr [])]) =
      .ok ⟨0x80, 1, 1, .arithmetic8 .add (some ⟨.register8 .a, false⟩)
        (some ⟨.register8 .b, false⟩)⟩ ∧
    ∃ fault, ofJson (addition [("category", .str "arithmetic8"),
      ("op", .obj [("add", .null), ("sub", .null)])]) = .error fault := by
  let head := [("machine_code", Json.int 0x80), ("byte_length", .int 1), ("duration", .int 1)]
  let start := [("category", Json.str "arithmetic8"), ("op", .str "add"), ("lhs", register "A" [])]
  have hparams {v w : Json} (h : Operation.Edit v w) :
      Edit (.obj (head ++ [("params", v)])) (.obj (head ++ [("params", w)])) :=
    .change ⟨rfl, h⟩
  constructor
  · have hdrop : Operation.Edit (.obj (start ++ [("rhs", register "B" [("pointer", .bool false)])]))
        (.obj (start ++ [("rhs", register "B" [])])) := by
      refine ⟨.arithmetic8, List.mem_cons_self, .change ⟨by decide, ?_⟩⟩
      exact @Json.Edit.drop _ _ _ [_] [] _ _ ⟨rfl, rfl⟩
    have hadd : Operation.Edit (.obj (start ++ [("rhs", register "B" [])]))
        (.obj (("remark", .arr []) :: start ++ [("rhs", register "B" [])])) :=
      ⟨.arithmetic8, List.mem_cons_self, @Json.Edit.add _ _ _ [] _ _ _ (by decide) rfl⟩
    have hreverse : Edit (addition (("remark", .arr []) :: start ++ [("rhs", register "B" [])]))
        (addition (("remark", .arr []) :: start ++ [("rhs", register "B" [])]).reverse) :=
      .reorder (@Reorders.member head [] _ _ _ (.object (List.reverse_perm _).symm))
    have hedits := (Relation.ReflTransGen.single (hparams hdrop)).tail (hparams hadd)
    exact ofJson_of_edits.1 _ _ _ rfl (hedits.tail hreverse)
  · let both := [("add", Json.null), ("sub", .null)]
    have hop : Operation.Alternative
        (.obj [("category", .str "arithmetic8"), ("op", .obj both)]) (.obj both) := by
      refine ⟨.arithmetic8, "op", _, List.mem_cons_self, ?_, by decide, .inl ⟨by decide, rfl⟩⟩
      exact List.mem_cons_of_mem _ List.mem_cons_self
    refine ofJson_of_edits.2.2 _ both ⟨_, ?_, hop⟩ (by decide)
    exact List.mem_append_right head List.mem_cons_self

end Descriptor

end GoldenTrace
