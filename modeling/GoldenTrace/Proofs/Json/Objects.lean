import GoldenTrace.Proofs.Json.Faithful

/-!
# Objects read back

A reader of objects is put together from readers of single members, and so is
the proof that it takes the members of a written object. What one part knows
leaves the drafts of the other parts as they are, as long as no key is known
to both.
-/

namespace GoldenTrace.Json.Fields

variable {α β : Type} {n : Nat}

/-- A member is put into the draft exactly if its key is known. -/
def Lawful (f : Fields α) : Prop :=
  ∀ draft k v, (f.put draft k v).isSome = true ↔ k ∈ f.keys

/-- The members are all known to the reader and at most `n` levels deep, and
the reader makes `a` of them. -/
structure Takes (n : Nat) (f : Fields α) (ms : List (String × Json)) (a : α) : Prop where
  lawful : f.Lawful
  known : ∀ m ∈ ms, m.1 ∈ f.keys
  within : WithinMembers n ms
  finished : ∃ draft, ms.foldlM f.step f.blank = .ok draft ∧ f.finish draft = .ok a

@[simp] theorem keys_required (key : String) (read : Json → Read α) :
    (required key read).keys = [key] := rfl

@[simp] theorem keys_defaulted (key : String) (default : α) (read : Json → Read α) :
    (defaulted key default read).keys = [key] := rfl

@[simp] theorem keys_optional (key : String) (read : Json → Read α) :
    (optional key read).keys = [key] := rfl

@[simp] theorem keys_both (f : Fields α) (g : Fields β) :
    (f.both g).keys = f.keys ++ g.keys := rfl

/-! ## One member -/

theorem lawful_one (key : String) (absent : Read α) (read : Json → Read α) :
    (one key absent read).Lawful := by
  intro draft k v
  by_cases hk : k = key <;> simp [one, hk]

theorem takes_one {key : String} {absent : Read α} {read : Json → Read α} {v : Json} {a : α}
    (hv : Within n v) (h : read v = .ok a) : (one key absent read).Takes n [(key, v)] a where
  lawful := lawful_one key absent read
  known m hm := by
    rw [List.mem_singleton.mp hm]
    exact List.mem_singleton_self key
  within := ⟨hv, trivial⟩
  finished := by
    refine ⟨some a, ?_, rfl⟩
    simp only [List.foldlM_cons, List.foldlM_nil, step, one, if_pos, h]
    rfl

theorem takes_required {write : α → Json} {read : Json → Read α} (h : Faithful n write read)
    (key : String) (a : α) : (required key read).Takes n [(key, write a)] a :=
  takes_one (h.within a) (h.read_write a)

theorem takes_defaulted {write : α → Json} {read : Json → Read α} (h : Faithful n write read)
    (key : String) (default a : α) : (defaulted key default read).Takes n [(key, write a)] a :=
  takes_one (h.within a) (h.read_write a)

theorem takes_default (key : String) (default : α) (read : Json → Read α) :
    (defaulted key default read).Takes n [] default where
  lawful := lawful_one key (.ok default) read
  known _ hm := absurd hm List.not_mem_nil
  within := trivial
  finished := ⟨none, rfl, rfl⟩

theorem takes_optional {write : α → Json} {read : Json → Read α} (h : Faithful n write read)
    (hnull : ∀ a, write a ≠ .null) (key : String) (a : Option α) :
    (optional key read).Takes n [(key, ofOption write a)] a :=
  takes_defaulted (h.option hnull) key none a

/-! ## Several members -/

section

variable {f : Fields α} {g : Fields β}

theorem Lawful.put_eq_none (hf : f.Lawful) {k : String} (hk : k ∉ f.keys) (draft : f.Draft)
    (v : Json) : f.put draft k v = none := by
  rw [← Option.not_isSome_iff_eq_none, hf draft k v]
  exact hk

theorem Lawful.both (hf : f.Lawful) (hg : g.Lawful) : (f.both g).Lawful := by
  intro draft k v
  simp only [Fields.both, List.mem_append]
  by_cases hk : k ∈ f.keys
  · obtain ⟨r, hr⟩ := Option.isSome_iff_exists.mp ((hf draft.1 k v).mpr hk)
    simp [hr, hk]
  · rw [hf.put_eq_none hk]
    simp [hk, hg draft.2 k v]

/-- Two drafts as a draft of both readers. -/
def pair (d : f.Draft) (e : g.Draft) : (f.both g).Draft :=
  (d, e)

/-- A member known on the left goes into the draft there. -/
theorem step_both_left (hf : f.Lawful) {m : String × Json} (hm : m.1 ∈ f.keys)
    (d : f.Draft) (e : g.Draft) :
    (f.both g).step (pair d e) m = (fun d' => pair d' e) <$> f.step d m := by
  obtain ⟨r, hr⟩ := Option.isSome_iff_exists.mp ((hf d m.1 m.2).mpr hm)
  simp only [step, Fields.both, pair, hr]

/-- A member that is not known on the left goes into the draft on the right, if it is known
there. -/
theorem step_both_right (hf : f.Lawful) {m : String × Json} (hm : m.1 ∉ f.keys)
    (d : f.Draft) (e : g.Draft) :
    (f.both g).step (pair d e) m = (fun e' => pair d e') <$> g.step e m := by
  simp only [step, Fields.both, pair, hf.put_eq_none hm]
  cases g.put e m.1 m.2 with
  | none => cases skip m.2 <;> rfl
  | some r => rfl

theorem foldlM_both_left (hf : f.Lawful) {ms : List (String × Json)}
    (hms : ∀ m ∈ ms, m.1 ∈ f.keys) {d d' : f.Draft} (e : g.Draft)
    (h : ms.foldlM f.step d = .ok d') : ms.foldlM (f.both g).step (pair d e) = .ok (pair d' e) := by
  induction ms generalizing d with
  | nil =>
      cases h
      rfl
  | cons m ms ih =>
      obtain ⟨hm, hms⟩ := List.forall_mem_cons.mp hms
      rw [List.foldlM_cons] at h ⊢
      rw [step_both_left hf hm]
      cases hstep : f.step d m with
      | error e =>
          rw [hstep] at h
          cases h
      | ok d₁ =>
          rw [hstep] at h
          exact ih hms h

theorem foldlM_both_right (hf : f.Lawful) {ms : List (String × Json)}
    (hms : ∀ m ∈ ms, m.1 ∈ g.keys ∧ m.1 ∉ f.keys) (d : f.Draft) {e e' : g.Draft}
    (h : ms.foldlM g.step e = .ok e') : ms.foldlM (f.both g).step (pair d e) = .ok (pair d e') := by
  induction ms generalizing e with
  | nil =>
      cases h
      rfl
  | cons m ms ih =>
      obtain ⟨hm, hms⟩ := List.forall_mem_cons.mp hms
      rw [List.foldlM_cons] at h ⊢
      rw [step_both_right hf hm.2]
      cases hstep : g.step e m with
      | error x =>
          rw [hstep] at h
          cases h
      | ok e₁ =>
          rw [hstep] at h
          exact ih hms h

/-- Readers with different keys take the members of both. -/
theorem Takes.both {ms ns : List (String × Json)} {a : α} {b : β} (hf : f.Takes n ms a)
    (hg : g.Takes n ns b) (hkeys : ∀ k ∈ g.keys, k ∉ f.keys) :
    (f.both g).Takes n (ms ++ ns) (a, b) where
  lawful := hf.lawful.both hg.lawful
  known m hm := by
    rcases List.mem_append.mp hm with h | h
    · exact List.mem_append_left g.keys (hf.known m h)
    · exact List.mem_append_right f.keys (hg.known m h)
  within := withinMembers_append hf.within hg.within
  finished := by
    obtain ⟨d, hd, hfd⟩ := hf.finished
    obtain ⟨e, he, hge⟩ := hg.finished
    have hns : ∀ m ∈ ns, m.1 ∈ g.keys ∧ m.1 ∉ f.keys :=
      fun m hm => ⟨hg.known m hm, hkeys m.1 (hg.known m hm)⟩
    -- the left members leave the right draft blank, and the right ones the left as it is
    have hleft : ms.foldlM (f.both g).step (f.both g).blank = .ok (pair d g.blank) :=
      foldlM_both_left hf.lawful hf.known g.blank hd
    have hright : ns.foldlM (f.both g).step (pair d g.blank) = .ok (pair d e) :=
      foldlM_both_right hf.lawful hns d he
    refine ⟨pair d e, ?_, ?_⟩
    · rw [List.foldlM_append, hleft]
      exact hright
    · simp only [Fields.both, pair, hfd, hge]
      rfl

theorem step_andThen (next : α → Read β) : (f.andThen next).step = f.step := by
  funext d m
  have hput : (f.andThen next).put d m.1 m.2 = f.put d m.1 m.2 := rfl
  simp only [step, hput]
  cases f.put d m.1 m.2 <;> rfl

theorem Takes.andThen {ms : List (String × Json)} {a : α} {b : β} {next : α → Read β}
    (hf : f.Takes n ms a) (hnext : next a = .ok b) : (f.andThen next).Takes n ms b where
  lawful := hf.lawful
  known := hf.known
  within := hf.within
  finished := by
    obtain ⟨d, hd, hfd⟩ := hf.finished
    refine ⟨d, ?_, ?_⟩
    · rw [step_andThen]
      exact hd
    · simp only [Fields.andThen, hfd]
      exact hnext

theorem Takes.map {ms : List (String × Json)} {a : α} (hf : f.Takes n ms a) (make : α → β) :
    (f.map make).Takes n ms (make a) :=
  hf.andThen rfl

theorem Takes.readMembers {ms : List (String × Json)} {a : α} (hf : f.Takes n ms a) :
    f.readMembers ms = .ok a := by
  obtain ⟨d, hd, hfd⟩ := hf.finished
  rw [Fields.readMembers, hd]
  exact hfd

/-- A reader that takes the members of every written object reads it back. -/
theorem faithful_of_takes {members : α → List (String × Json)} (origin : Origin)
    (h : ∀ a, f.Takes n (members a) a) :
    Faithful (n + 1) (fun a => .obj (members a)) (f.read origin) where
  within a := (h a).within
  read_write a := (h a).readMembers

end

end GoldenTrace.Json.Fields
