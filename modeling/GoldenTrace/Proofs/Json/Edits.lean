import GoldenTrace.Proofs.Json.Objects
import GoldenTrace.Proofs.Json.Reordering

/-!
# Edits of an object

An object may be edited so that its reader takes it for the same: its members get another order,
a member with an unknown key is added, one that says no more than its absence is dropped, or a
value is written differently. The laws are local. They say what one member does to a draft, hold
of a reader of several members if they hold of its parts, and carry over to the whole object
because a draft does not tell in which order its members came.
-/

namespace GoldenTrace.Json

/-- An edit of a value that stands for an object. `idle` are the members that may be left out, and
`change` is what may become of the value under a key. An array stands for an object as well; its
items are the values of the keys in their order. -/
inductive Edit (keys : List String) (idle : String → Json → Prop)
    (change : String → Json → Json → Prop) : Json → Json → Prop
  | reorder {v w : Json} (h : Reorders v w) : Edit keys idle change v w
  | add {before after : List (String × Json)} {k : String} {v : Json} (hk : k ∉ keys)
      (hv : v.meaningful = true) :
      Edit keys idle change (.obj (before ++ after)) (.obj (before ++ (k, v) :: after))
  | drop {before after : List (String × Json)} {k : String} {v : Json} (h : idle k v) :
      Edit keys idle change (.obj (before ++ (k, v) :: after)) (.obj (before ++ after))
  | change {before after : List (String × Json)} {k : String} {v w : Json} (h : change k v w) :
      Edit keys idle change (.obj (before ++ (k, v) :: after)) (.obj (before ++ (k, w) :: after))
  | item {before after : List Json} {ks ks' : List String} {k : String} {v w : Json}
      (hkeys : keys = ks ++ k :: ks') (hlength : ks.length = before.length) (h : change k v w) :
      Edit keys idle change (.arr (before ++ v :: after)) (.arr (before ++ w :: after))

theorem Throughout.edit {test : Json → Bool} (ht : Throughout test) {keys : List String}
    {idle : String → Json → Prop} {change : String → Json → Json → Prop} {v w : Json}
    (hchange : ∀ k x y, change k x y → test x = true → test y = true)
    (h : Edit keys idle change v w) (hv : test v = true) : test w = true := by
  cases h with
  | reorder h => rwa [← ht.reorders h]
  | add hk hx =>
      simp only [ht.obj, List.all_append, List.all_cons, Bool.and_eq_true] at hv ⊢
      exact ⟨hv.1, ht.of_meaningful _ hx, hv.2⟩
  | drop =>
      simp only [ht.obj, List.all_append, List.all_cons, Bool.and_eq_true] at hv ⊢
      exact ⟨hv.1, hv.2.2⟩
  | change h =>
      simp only [ht.obj, List.all_append, List.all_cons, Bool.and_eq_true] at hv ⊢
      exact ⟨hv.1, hchange _ _ _ h hv.2.1, hv.2.2⟩
  | item _ _ h =>
      simp only [ht.arr, List.all_append, List.all_cons, Bool.and_eq_true] at hv ⊢
      exact ⟨hv.1, hchange _ _ _ h hv.2.1, hv.2.2⟩

theorem Edit.ne_null {keys : List String} {idle : String → Json → Prop}
    {change : String → Json → Json → Prop} {v w : Json} (h : Edit keys idle change v w) :
    v ≠ .null ∧ w ≠ .null := by
  cases h with
  | reorder h => exact h.ne_null
  | _ => exact ⟨Json.noConfusion, Json.noConfusion⟩

namespace Fields

variable {α β : Type}

/-! ## What one member does -/

/-- A member may have the second value in place of the first. -/
def Swaps (f : Fields α) (k : String) (v w : Json) : Prop :=
  ∀ d : f.Draft, Follows (fun x => f.step d (k, x)) v w

/-- A member may be left out. -/
def Idle (f : Fields α) (k : String) (v : Json) : Prop :=
  ∀ d d' a, f.step d (k, v) = .ok d' → f.finish d' = .ok a → f.finish d = .ok a

/-- A reader of objects that is insensitive to how they are presented: drafts do not tell in which
order their members came, members that are idle may be left out, and values may be changed. What
is `due` to a known key is true of each value that is accepted under it. -/
structure Insensitive (f : Fields α) (idle : String → Json → Prop)
    (change : String → Json → Json → Prop) (due : String → Json → Prop) : Prop where
  lawful : f.Lawful
  exchange : ∀ {m n : String × Json} {d d₁ d₂ : f.Draft}, f.step d m = .ok d₁ →
    f.step d₁ n = .ok d₂ → ∃ d₁', f.step d n = .ok d₁' ∧ f.step d₁' m = .ok d₂
  reorders : ∀ {v w : Json}, Reorders v w → ∀ k, f.Swaps k v w
  change : ∀ {k : String} {v w : Json}, change k v w → f.Swaps k v w
  idle : ∀ {k : String} {v : Json}, idle k v → f.Idle k v
  due : ∀ {k : String}, k ∈ f.keys → ∀ {v d d'}, f.step d (k, v) = .ok d' → due k v

variable {idle : String → Json → Prop} {change : String → Json → Json → Prop}
  {due : String → Json → Prop}

/-! ## One member -/

section

variable {key : String} {absent : Read α} {read : Json → Read α}

theorem skip_eq_ok_iff {v : Json} {δ : Type} {d d' : δ} :
    (fun _ => d) <$> skip v = Except.ok d' ↔ v.passable = true ∧ d' = d := by
  rw [map_eq_ok_iff, skip]
  split
  case isTrue hv => simp [hv, eq_comm]
  case isFalse hv => simp [hv]

theorem step_of_not_mem {f : Fields α} (hf : f.Lawful) {m : String × Json} (hm : m.1 ∉ f.keys)
    (d d' : f.Draft) : f.step d m = .ok d' ↔ m.2.passable = true ∧ d' = d := by
  rw [step, hf.put_eq_none hm]
  exact skip_eq_ok_iff

theorem step_one_of_ne {m : String × Json} (hm : m.1 ≠ key) (d d' : Option α) :
    (one key absent read).step d m = .ok d' ↔ m.2.passable = true ∧ d' = d :=
  step_of_not_mem (lawful_one key absent read) (fun h => hm (List.mem_singleton.mp h)) d d'

/-- The known key may come once. -/
theorem step_one_key {v : Json} (d d' : Option α) :
    (one key absent read).step d (key, v) = .ok d' ↔
      d = none ∧ ∃ a, read v = .ok a ∧ d' = some a := by
  simp only [step, one, if_pos]
  cases d with
  | none => simp [map_eq_ok_iff, eq_comm (a := d')]
  | some a => simp

theorem swaps_one {k : String} {v w : Json} (hread : k = key → Follows read v w)
    (hpassable : v.passable = true → w.passable = true) :
    (one key absent read).Swaps k v w := by
  intro d d' hd
  by_cases hk : k = key
  · subst hk
    obtain ⟨hnone, a, ha, hd'⟩ := (step_one_key d d').mp hd
    exact (step_one_key d d').mpr ⟨hnone, a, hread rfl a ha, hd'⟩
  · obtain ⟨hv, hd'⟩ := (step_one_of_ne (m := (k, v)) hk d d').mp hd
    exact (step_one_of_ne (m := (k, w)) hk d d').mpr ⟨hpassable hv, hd'⟩

theorem idle_one {k : String} {v : Json}
    (h : k = key → ∀ a, read v = .ok a → absent = .ok a) : (one key absent read).Idle k v := by
  intro d d' a hd hfinish
  by_cases hk : k = key
  · subst hk
    obtain ⟨rfl, b, hb, rfl⟩ := (step_one_key d d').mp hd
    cases hfinish
    exact h rfl a hb
  · obtain ⟨-, rfl⟩ := (step_one_of_ne (m := (k, v)) hk d d').mp hd
    exact hfinish

theorem insensitive_one (hread : Stable read)
    (hidle : ∀ v a, idle key v → read v = .ok a → absent = .ok a)
    (hchange : ∀ v w, change key v w → Follows read v w)
    (hpassable : ∀ k v w, change k v w → v.passable = true → w.passable = true)
    (hdue : ∀ v a, read v = .ok a → due key v) :
    (one key absent read).Insensitive idle change due where
  lawful := lawful_one key absent read
  exchange := by
    intro m n d d₁ d₂ hm hn
    by_cases hmk : m.1 = key
    · by_cases hnk : n.1 = key
      · -- the second of two members with the key is refused
        obtain ⟨k, v⟩ := m
        obtain ⟨k', v'⟩ := n
        obtain rfl : k = key := hmk
        obtain rfl : k' = k := hnk
        obtain ⟨-, a, -, rfl⟩ := (step_one_key d d₁).mp hm
        obtain ⟨hnone, -⟩ := (step_one_key _ d₂).mp hn
        cases hnone
      · obtain ⟨hskip, rfl⟩ := (step_one_of_ne hnk d₁ d₂).mp hn
        exact ⟨d, (step_one_of_ne hnk d d).mpr ⟨hskip, rfl⟩, hm⟩
    · obtain ⟨hskip, rfl⟩ := (step_one_of_ne hmk d d₁).mp hm
      exact ⟨d₂, hn, (step_one_of_ne hmk d₂ d₂).mpr ⟨hskip, rfl⟩⟩
  reorders hvw k := by
    refine swaps_one (fun _ => hread _ _ hvw) ?_
    rw [throughout_passable.reorders hvw]
    exact id
  change := by
    intro k v w hvw
    refine swaps_one ?_ (hpassable k v w hvw)
    rintro rfl
    exact hchange v w hvw
  idle := by
    intro k v hv
    refine idle_one ?_
    rintro rfl a
    exact hidle v a hv
  due := by
    intro k hk v d d' hd
    obtain rfl := List.mem_singleton.mp hk
    obtain ⟨-, a, ha, -⟩ := (step_one_key d d').mp hd
    exact hdue v a ha

end

/-! ## Several members -/

section

variable {f : Fields α} {g : Fields β} {k : String} {v w : Json}

theorem step_both_of_mem (hf : f.Lawful) {m : String × Json} (hm : m.1 ∈ f.keys)
    {d d' : f.Draft} {e e' : g.Draft} :
    (f.both g).step (pair d e) m = .ok (pair d' e') ↔ f.step d m = .ok d' ∧ e' = e := by
  rw [step_both_left hf hm, map_eq_ok_iff]
  constructor
  · rintro ⟨d'', hd, heq⟩
    obtain ⟨rfl, rfl⟩ := Prod.mk.inj heq
    exact ⟨hd, rfl⟩
  · rintro ⟨hd, rfl⟩
    exact ⟨d', hd, rfl⟩

theorem step_both_of_not_mem (hf : f.Lawful) {m : String × Json} (hm : m.1 ∉ f.keys)
    {d d' : f.Draft} {e e' : g.Draft} :
    (f.both g).step (pair d e) m = .ok (pair d' e') ↔ g.step e m = .ok e' ∧ d' = d := by
  rw [step_both_right hf hm, map_eq_ok_iff]
  constructor
  · rintro ⟨e'', he, heq⟩
    obtain ⟨rfl, rfl⟩ := Prod.mk.inj heq
    exact ⟨he, rfl⟩
  · rintro ⟨he, rfl⟩
    exact ⟨e', he, rfl⟩

theorem Swaps.both (hf : f.Lawful) (hswaps : f.Swaps k v w) (hswaps' : g.Swaps k v w) :
    (f.both g).Swaps k v w := by
  rintro ⟨d, e⟩ ⟨d', e'⟩ h
  by_cases hk : k ∈ f.keys
  · obtain ⟨hd, he⟩ := (step_both_of_mem hf hk).mp h
    exact (step_both_of_mem hf hk).mpr ⟨hswaps d d' hd, he⟩
  · obtain ⟨he, hd⟩ := (step_both_of_not_mem hf hk).mp h
    exact (step_both_of_not_mem hf hk).mpr ⟨hswaps' e e' he, hd⟩

theorem finish_both_eq_ok_iff {d : f.Draft} {e : g.Draft} {a : α} {b : β} :
    (f.both g).finish (pair d e) = .ok (a, b) ↔ f.finish d = .ok a ∧ g.finish e = .ok b := by
  show (f.finish d >>= fun a => g.finish e >>= fun b => pure (a, b)) = _ ↔ _
  simp only [bind_eq_ok_iff]
  constructor
  · rintro ⟨a', ha, b', hb, heq⟩
    cases heq
    exact ⟨ha, hb⟩
  · rintro ⟨ha, hb⟩
    exact ⟨a, ha, b, hb, rfl⟩

theorem Idle.both (hf : f.Lawful) (hidle : f.Idle k v) (hidle' : g.Idle k v) :
    (f.both g).Idle k v := by
  rintro ⟨d, e⟩ ⟨d', e'⟩ ⟨a, b⟩ h hfinish
  obtain ⟨ha, hb⟩ := finish_both_eq_ok_iff.mp hfinish
  by_cases hk : k ∈ f.keys
  · obtain ⟨hd, rfl⟩ := (step_both_of_mem hf hk).mp h
    exact finish_both_eq_ok_iff.mpr ⟨hidle d d' a hd ha, hb⟩
  · obtain ⟨he, rfl⟩ := (step_both_of_not_mem hf hk).mp h
    exact finish_both_eq_ok_iff.mpr ⟨ha, hidle' e e' b he hb⟩

theorem Insensitive.both (hf : f.Insensitive idle change due)
    (hg : g.Insensitive idle change due) : (f.both g).Insensitive idle change due where
  lawful := hf.lawful.both hg.lawful
  exchange := by
    rintro m n ⟨d, e⟩ ⟨d₁, e₁⟩ ⟨d₂, e₂⟩ hm hn
    -- members of one part are exchanged there, and those of different parts do not meet
    by_cases hmf : m.1 ∈ f.keys <;> by_cases hnf : n.1 ∈ f.keys
    · obtain ⟨hd, rfl⟩ := (step_both_of_mem hf.lawful hmf).mp hm
      obtain ⟨hd₁, rfl⟩ := (step_both_of_mem hf.lawful hnf).mp hn
      obtain ⟨d₁', hd, hd₁⟩ := hf.exchange hd hd₁
      exact ⟨pair d₁' e₂, (step_both_of_mem hf.lawful hnf).mpr ⟨hd, rfl⟩,
        (step_both_of_mem hf.lawful hmf).mpr ⟨hd₁, rfl⟩⟩
    · obtain ⟨hd, rfl⟩ := (step_both_of_mem hf.lawful hmf).mp hm
      obtain ⟨he, rfl⟩ := (step_both_of_not_mem hf.lawful hnf).mp hn
      exact ⟨pair d e₂, (step_both_of_not_mem hf.lawful hnf).mpr ⟨he, rfl⟩,
        (step_both_of_mem hf.lawful hmf).mpr ⟨hd, rfl⟩⟩
    · obtain ⟨he, rfl⟩ := (step_both_of_not_mem hf.lawful hmf).mp hm
      obtain ⟨hd, rfl⟩ := (step_both_of_mem hf.lawful hnf).mp hn
      exact ⟨pair d₂ e, (step_both_of_mem hf.lawful hnf).mpr ⟨hd, rfl⟩,
        (step_both_of_not_mem hf.lawful hmf).mpr ⟨he, rfl⟩⟩
    · obtain ⟨he, rfl⟩ := (step_both_of_not_mem hf.lawful hmf).mp hm
      obtain ⟨he₁, rfl⟩ := (step_both_of_not_mem hf.lawful hnf).mp hn
      obtain ⟨e₁', he, he₁⟩ := hg.exchange he he₁
      exact ⟨pair d₂ e₁', (step_both_of_not_mem hf.lawful hnf).mpr ⟨he, rfl⟩,
        (step_both_of_not_mem hf.lawful hmf).mpr ⟨he₁, rfl⟩⟩
  reorders hvw k := (hf.reorders hvw k).both hf.lawful (hg.reorders hvw k)
  change hvw := (hf.change hvw).both hf.lawful (hg.change hvw)
  idle hv := (hf.idle hv).both hf.lawful (hg.idle hv)
  due := by
    rintro k hk v ⟨d, e⟩ ⟨d', e'⟩ h
    by_cases hkf : k ∈ f.keys
    · obtain ⟨hd, -⟩ := (step_both_of_mem hf.lawful hkf).mp h
      exact hf.due hkf hd
    · obtain ⟨he, -⟩ := (step_both_of_not_mem hf.lawful hkf).mp h
      exact hg.due ((List.mem_append.mp hk).resolve_left hkf) he

/-! What is made of the draft in the end does not change how members are put into it. -/

theorem step_map (make : α → β) (d : f.Draft) (m : String × Json) :
    (f.map make).step d m = f.step d m :=
  congrFun (congrFun (step_andThen fun a => .ok (make a)) d) m

theorem Swaps.map (h : f.Swaps k v w) (make : α → β) : (f.map make).Swaps k v w := by
  intro d d' hd
  exact (step_map make d (k, w)).trans (h d d' ((step_map make d (k, v)).symm.trans hd))

theorem Idle.map (h : f.Idle k v) (make : α → β) : (f.map make).Idle k v := by
  intro d d' b hd hfinish
  obtain ⟨a, ha, hb⟩ := bind_eq_ok_iff.mp hfinish
  have hfinish' := h d d' a ((step_map make d (k, v)).symm.trans hd) ha
  exact bind_eq_ok_iff.mpr ⟨a, hfinish', hb⟩

theorem Insensitive.map (h : f.Insensitive idle change due) (make : α → β) :
    (f.map make).Insensitive idle change due where
  lawful := h.lawful
  exchange := by
    intro m n d d₁ d₂ hm hn
    obtain ⟨d₁', hn, hm⟩ := h.exchange ((step_map make d m).symm.trans hm)
      ((step_map make d₁ n).symm.trans hn)
    exact ⟨d₁', (step_map make d n).trans hn, (step_map make d₁' m).trans hm⟩
  reorders hvw k := (h.reorders hvw k).map make
  change hvw := (h.change hvw).map make
  idle hv := (h.idle hv).map make
  due := by
    intro k hk v d d' hd
    exact h.due hk ((step_map make d (k, v)).symm.trans hd)

end

/-! ## Whole objects -/

section

variable {f : Fields α} {ms ns : List (String × Json)} {k : String} {v w : Json} {a : α}

theorem Insensitive.foldlM_perm (hf : f.Insensitive idle change due) (h : ms.Perm ns)
    {d d' : f.Draft} (hms : ms.foldlM f.step d = .ok d') : ns.foldlM f.step d = .ok d' := by
  induction h generalizing d with
  | nil => exact hms
  | cons m _ ih =>
      rw [List.foldlM_cons, bind_eq_ok_iff] at hms ⊢
      obtain ⟨d₁, hm, hrest⟩ := hms
      exact ⟨d₁, hm, ih hrest⟩
  | swap m n l =>
      simp only [List.foldlM_cons, bind_eq_ok_iff] at hms ⊢
      obtain ⟨d₁, hn, d₂, hm, hrest⟩ := hms
      obtain ⟨d₁', hm, hn⟩ := hf.exchange hn hm
      exact ⟨d₁', hm, d₂, hn, hrest⟩
  | trans _ _ ih₁ ih₂ => exact ih₂ (ih₁ hms)

/-- The order of members is all one. -/
theorem Insensitive.readMembers_perm (hf : f.Insensitive idle change due) (h : ms.Perm ns)
    (hms : f.readMembers ms = .ok a) : f.readMembers ns = .ok a := by
  obtain ⟨d, hd, hfinish⟩ := bind_eq_ok_iff.mp hms
  exact bind_eq_ok_iff.mpr ⟨d, hf.foldlM_perm h hd, hfinish⟩

/-- Every member may be taken for the last. -/
theorem Insensitive.readMembers_middle (hf : f.Insensitive idle change due)
    {before after : List (String × Json)} {m : String × Json} :
    f.readMembers (before ++ m :: after) = .ok a ↔
      ∃ d d', (before ++ after).foldlM f.step f.blank = .ok d ∧ f.step d m = .ok d' ∧
        f.finish d' = .ok a := by
  have hlast : (before ++ m :: after).Perm ((before ++ after) ++ [m]) :=
    List.perm_middle.trans (List.perm_append_singleton m _).symm
  have hread : f.readMembers ((before ++ after) ++ [m]) = .ok a ↔
      ∃ d d', (before ++ after).foldlM f.step f.blank = .ok d ∧ f.step d m = .ok d' ∧
        f.finish d' = .ok a := by
    rw [readMembers, List.foldlM_append]
    simp only [List.foldlM_cons, List.foldlM_nil, bind_eq_ok_iff]
    constructor
    · rintro ⟨_, ⟨d, hd, d', hd', heq⟩, hfinish⟩
      obtain rfl := Except.ok.inj heq
      exact ⟨d, d', hd, hd', hfinish⟩
    · rintro ⟨d, d', hd, hd', hfinish⟩
      exact ⟨d', ⟨d, hd, d', hd', rfl⟩, hfinish⟩
  rw [← hread]
  exact ⟨hf.readMembers_perm hlast, hf.readMembers_perm hlast.symm⟩

/-- An array stands for the object that has its items under the keys. -/
theorem readItems_eq_ok_iff {origin : Origin} {items : List Json} :
    f.readItems origin items = .ok a ↔
      items.length ≤ f.keys.length ∧ f.readMembers (f.keys.zip items) = .ok a := by
  rw [readItems, readMembers, bind_eq_ok_iff, bind_eq_ok_iff]
  constructor
  · rintro ⟨d, hd, hfinish⟩
    split at hfinish
    case isTrue => cases hfinish
    case isFalse hlength => exact ⟨Nat.le_of_not_lt hlength, d, hd, hfinish⟩
  · rintro ⟨hlength, d, hd, hfinish⟩
    exact ⟨d, hd, by rwa [if_neg (Nat.not_lt_of_le hlength)]⟩

theorem zip_middle {ks ks' : List String} {before after : List Json}
    (hlength : ks.length = before.length) :
    (ks ++ k :: ks').zip (before ++ v :: after) = ks.zip before ++ (k, v) :: ks'.zip after := by
  rw [List.zip_append hlength, List.zip_cons_cons]

theorem exists_key {keys : List String} {before after : List Json}
    (h : (before ++ v :: after).length ≤ keys.length) :
    ∃ ks k ks', keys = ks ++ k :: ks' ∧ ks.length = before.length := by
  rw [List.length_append, List.length_cons] at h
  have hlt : before.length < keys.length := by omega
  refine ⟨keys.take before.length, keys[before.length], keys.drop (before.length + 1), ?_, ?_⟩
  · rw [← List.drop_eq_getElem_cons hlt, List.take_append_drop]
  · rw [List.length_take, Nat.min_eq_left (Nat.le_of_lt hlt)]

theorem Insensitive.readMembers_swap (hf : f.Insensitive idle change due) (h : f.Swaps k v w)
    {before after : List (String × Json)}
    (hread : f.readMembers (before ++ (k, v) :: after) = .ok a) :
    f.readMembers (before ++ (k, w) :: after) = .ok a := by
  obtain ⟨d, d', hd, hstep, hfinish⟩ := hf.readMembers_middle.mp hread
  exact hf.readMembers_middle.mpr ⟨d, d', hd, h d d' hstep, hfinish⟩

theorem Insensitive.readItems_swap (hf : f.Insensitive idle change due) {origin : Origin}
    {ks ks' : List String} {before after : List Json} (hkeys : f.keys = ks ++ k :: ks')
    (hlength : ks.length = before.length) (h : f.Swaps k v w)
    (hread : f.readItems origin (before ++ v :: after) = .ok a) :
    f.readItems origin (before ++ w :: after) = .ok a := by
  rw [readItems_eq_ok_iff, hkeys, zip_middle hlength] at hread ⊢
  refine ⟨?_, hf.readMembers_swap h hread.2⟩
  simpa using hread.1

/-- The order of members is all one, at any depth. -/
theorem Insensitive.stable (hf : f.Insensitive idle change due) (origin : Origin) :
    Stable (f.read origin) := by
  intro v w hvw a ha
  cases hvw with
  | object hperm => exact hf.readMembers_perm hperm ha
  | member hvw => exact hf.readMembers_swap (hf.reorders hvw _) ha
  | item hvw =>
      obtain ⟨hlength, -⟩ := readItems_eq_ok_iff.mp ha
      obtain ⟨ks, k, ks', hkeys, hlength⟩ := exists_key hlength
      exact hf.readItems_swap hkeys hlength (hf.reorders hvw k) ha

/-- Edits of a member carry over to the object. -/
theorem Insensitive.follows (hf : f.Insensitive idle change due) (origin : Origin)
    (h : Edit f.keys idle change v w) : Follows (f.read origin) v w := by
  intro a ha
  cases h with
  | reorder h => exact hf.stable origin v w h a ha
  | @add _ _ k x hk hx =>
      obtain ⟨d, hd, hfinish⟩ := bind_eq_ok_iff.mp ha
      have hstep : f.step d (k, x) = .ok d :=
        (step_of_not_mem hf.lawful hk d d).mpr ⟨passable_of_meaningful x hx, rfl⟩
      exact hf.readMembers_middle.mpr ⟨d, d, hd, hstep, hfinish⟩
  | drop h =>
      obtain ⟨d, d', hd, hstep, hfinish⟩ := hf.readMembers_middle.mp ha
      exact bind_eq_ok_iff.mpr ⟨d, hd, hf.idle h d d' a hstep hfinish⟩
  | change h => exact hf.readMembers_swap (hf.change h) ha
  | item hkeys hlength h => exact hf.readItems_swap hkeys hlength (hf.change h) ha

end

end Fields

/-! ## Members of a value -/

/-- A value has another as a member, whether it is an object or an array that stands for one. -/
def Holds (keys : List String) (v : Json) (k : String) (x : Json) : Prop :=
  match v with
  | .obj ms => (k, x) ∈ ms
  | .arr items => (k, x) ∈ keys.zip items
  | _ => False

theorem Fields.exists_step_of_mem {α : Type} {f : Fields α} {ms : List (String × Json)}
    {m : String × Json} (hm : m ∈ ms) {d d' : f.Draft} (h : ms.foldlM f.step d = .ok d') :
    ∃ d₁ d₂, f.step d₁ m = .ok d₂ := by
  obtain ⟨before, after, rfl⟩ := List.append_of_mem hm
  rw [List.foldlM_append, bind_eq_ok_iff] at h
  obtain ⟨d₁, -, hrest⟩ := h
  rw [List.foldlM_cons, bind_eq_ok_iff] at hrest
  obtain ⟨d₂, hstep, -⟩ := hrest
  exact ⟨d₁, d₂, hstep⟩

/-- What is due to a key is true of the value that an accepted object has under it. -/
theorem Fields.Insensitive.due_of_holds {α : Type} {f : Fields α} {idle : String → Json → Prop}
    {change : String → Json → Json → Prop} {due : String → Json → Prop}
    (hf : f.Insensitive idle change due) {origin : Origin} {v x : Json} {k : String} {a : α}
    (hread : f.read origin v = .ok a) (hx : Holds f.keys v k x) (hk : k ∈ f.keys) : due k x := by
  have hmembers : ∃ ms, f.readMembers ms = .ok a ∧ (k, x) ∈ ms := by
    cases v with
    | obj ms => exact ⟨ms, hread, hx⟩
    | arr items => exact ⟨_, (readItems_eq_ok_iff.mp hread).2, hx⟩
    | _ => cases hx
  obtain ⟨ms, hms, hmem⟩ := hmembers
  obtain ⟨d, hd, -⟩ := bind_eq_ok_iff.mp hms
  obtain ⟨d₁, d₂, hstep⟩ := exists_step_of_mem hmem hd
  exact hf.due hk hstep

end GoldenTrace.Json
