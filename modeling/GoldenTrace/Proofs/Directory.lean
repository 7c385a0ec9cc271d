import GoldenTrace.Directory.Basic
import Mathlib.Data.List.Infix
import Mathlib.Tactic.Common

/-!
# One file written

A path leads only through directories, and a file that is written is no directory. So writing a
file makes no directory and removes none: every path leads to where it led before, and holds what
it held before unless it leads to the file.
-/

namespace GoldenTrace.Directory

variable {d : Directory} {place : List String}

/-! ## Directories -/

theorem hasDirectory_iff {q : List String} :
    d.hasDirectory q = true ↔
      isAbove q = true ∨ q ∈ systemDirectories ∨ (∃ p ∈ d.directories, q <+: p) ∨
        ∃ f ∈ d.files, q <+: f.1 ∧ q.length < f.1.length := by
  simp [hasDirectory, or_assoc]

theorem isAbove_of_isPrefix {p q : List String} (hq : q <+: p) (h : isAbove p = true) :
    isAbove q = true := by
  rw [isAbove, List.all_eq_true] at h ⊢
  exact fun s hs => h s (hq.subset hs)

theorem hasDirectory_of_isAbove {q : List String} (h : isAbove q = true) :
    d.hasDirectory q = true :=
  hasDirectory_iff.mpr (.inl h)

/-- What a directory is in is a directory. -/
theorem hasDirectory_of_isPrefix {p q : List String} (hq : q <+: p) (h : d.hasDirectory p = true) :
    d.hasDirectory q = true := by
  rcases hasDirectory_iff.mp h with habove | hsystem | ⟨listed, hlisted, hp⟩ | ⟨f, hf, hp, hlt⟩
  · exact hasDirectory_of_isAbove (isAbove_of_isPrefix hq habove)
  · have hclosed : ∀ p ∈ systemDirectories, ∀ q ∈ p.inits, q = [] ∨ q ∈ systemDirectories := by
      decide
    rcases hclosed p hsystem q ((List.mem_inits q p).mpr hq) with rfl | hq
    · exact hasDirectory_of_isAbove rfl
    · exact hasDirectory_iff.mpr (.inr (.inl hq))
  · exact hasDirectory_iff.mpr (.inr (.inr (.inl ⟨listed, hlisted, hq.trans hp⟩)))
  · have hle := hq.length_le
    exact hasDirectory_iff.mpr (.inr (.inr (.inr ⟨f, hf, hq.trans hp, by omega⟩)))

/-- A place that is in directories only. -/
def Reachable (d : Directory) (place : List String) : Prop :=
  ∀ q, q <+: place → q ≠ place → d.hasDirectory q = true

theorem reachable_concat (h : d.hasDirectory place = true) (s : String) :
    d.Reachable (place ++ [s]) := by
  intro q hq hne
  rcases List.prefix_concat_iff.mp hq with heq | hq
  · exact absurd heq hne
  · exact hasDirectory_of_isPrefix hq h

theorem Reachable.above (h : d.Reachable place) : d.Reachable (above place) := by
  rw [Directory.above]
  split
  case isTrue hroot => exact hroot ▸ h
  case isFalse =>
    split
    case isTrue habove => exact reachable_concat (hasDirectory_of_isAbove habove) _
    case isFalse =>
      intro q hq hne
      refine h q (hq.trans (List.dropLast_prefix place)) ?_
      rintro rfl
      exact hne (hq.eq_of_length_le (List.dropLast_prefix q).length_le)

/-- One step from a place that is reached leads to one that is. -/
theorem Reachable.step (h : d.Reachable place) {s : String} {next : List String}
    (hstep : d.step place s = some next) : d.Reachable next := by
  rw [Directory.step] at hstep
  split at hstep
  case isTrue => cases hstep
  case isFalse hdirectory =>
    rw [Bool.not_eq_true, Bool.or_eq_false_iff, Bool.not_eq_false'] at hdirectory
    split at hstep
    case isTrue =>
      obtain rfl := Option.some.inj hstep
      exact h
    case isFalse =>
      split at hstep
      case isTrue =>
        obtain rfl := Option.some.inj hstep
        exact h.above
      case isFalse =>
        obtain rfl := Option.some.inj hstep
        exact reachable_concat hdirectory.1 s

theorem Reachable.foldlM {steps : List String} {next : List String} (h : d.Reachable place)
    (hsteps : steps.foldlM d.step place = some next) : d.Reachable next := by
  induction steps generalizing place with
  | nil =>
      obtain rfl := Option.some.inj hsteps
      exact h
  | cons s steps ih =>
      rw [List.foldlM_cons] at hsteps
      obtain ⟨middle, hmiddle, hrest⟩ := Option.bind_eq_some_iff.mp hsteps
      exact ih (h.step hmiddle) hrest

theorem reachable_of_resolve {path : String} (h : d.resolve path = some place) :
    d.Reachable place := by
  rw [resolve] at h
  split at h
  case isTrue => cases h
  case isFalse =>
    refine Reachable.foldlM ?_ h
    split
    case isTrue =>
      have hnowhere : d.hasDirectory [] = true := hasDirectory_of_isAbove rfl
      exact reachable_concat hnowhere "/"
    case isFalse =>
      intro q hq hne
      exact absurd (List.prefix_nil.mp hq) hne

/-! ## Writing -/

/-- Where a place is reached, a file there makes no directory and removes none. -/
theorem hasDirectory_put (h : d.Reachable place) (bytes : List UInt8) :
    (d.put place bytes).hasDirectory = d.hasDirectory := by
  funext q
  rw [Bool.eq_iff_iff]
  constructor
  · intro hq
    rcases hasDirectory_iff.mp hq with habove | hsystem | hlisted | ⟨f, hf, hprefix, hlt⟩
    · exact hasDirectory_of_isAbove habove
    · exact hasDirectory_iff.mpr (.inr (.inl hsystem))
    · exact hasDirectory_iff.mpr (.inr (.inr (.inl hlisted)))
    · rcases List.mem_cons.mp hf with rfl | hf
      · exact h q hprefix (fun heq => absurd (congrArg List.length heq) (Nat.ne_of_lt hlt))
      · have hold := List.mem_of_mem_filter hf
        exact hasDirectory_iff.mpr (.inr (.inr (.inr ⟨f, hold, hprefix, hlt⟩)))
  · intro hq
    rcases hasDirectory_iff.mp hq with habove | hsystem | hlisted | ⟨f, hf, hprefix, hlt⟩
    · exact hasDirectory_of_isAbove habove
    · exact hasDirectory_iff.mpr (.inr (.inl hsystem))
    · exact hasDirectory_iff.mpr (.inr (.inr (.inl hlisted)))
    · -- what was in the directory is still there, or it is the file itself
      refine hasDirectory_iff.mpr (.inr (.inr (.inr ?_)))
      by_cases heq : f.1 = place
      · exact ⟨(place, bytes), List.mem_cons_self, heq ▸ hprefix, heq ▸ hlt⟩
      · exact ⟨f, List.mem_cons_of_mem _ (List.mem_filter.mpr ⟨hf, by simpa using heq⟩),
          hprefix, hlt⟩

theorem resolve_put (h : d.Reachable place) (bytes : List UInt8) :
    (d.put place bytes).resolve = d.resolve := by
  have hstep : (d.put place bytes).step = d.step := by
    funext p s
    rw [step, step, hasDirectory_put h]
  funext path
  rw [resolve, resolve, hstep]

theorem get?_put (bytes : List UInt8) (q : List String) :
    (d.put place bytes).get? q = if q = place then some bytes else d.get? q := by
  rw [get?, get?, put]
  by_cases heq : q = place
  · rw [if_pos heq, List.find?_cons_of_pos (by simp [heq])]
    rfl
  · rw [if_neg heq, List.find?_cons_of_neg (by simpa using Ne.symm heq), List.find?_filter]
    congr 2
    funext f
    by_cases hf : f.1 = q <;> simp [hf, heq]

theorem write_of_resolve {path : String} (h : d.resolve path = some place)
    (hfree : d.hasDirectory place = false) (hnull : place ≠ nullDevice) (bytes : List UInt8) :
    d.write path bytes = some (d.put place bytes) := by
  rw [write, h, Option.bind_eq_bind, Option.bind_some, if_neg (by simp [hfree, hnull])]

/-- **Writing changes one file.** Its contents are the bytes, and all else is as it was. -/
theorem contents_of_write {path : String} {bytes : List UInt8} {written : Directory}
    (h : d.write path bytes = some written) :
    (∀ other, written.contents other =
      if d.resolve other = d.resolve path then some bytes else d.contents other) ∧
    written.isDirectory = d.isDirectory := by
  rw [write] at h
  obtain ⟨place, hplace, hput⟩ := Option.bind_eq_some_iff.mp h
  have hreachable := reachable_of_resolve hplace
  split at hput
  case isTrue => cases hput
  case isFalse =>
    obtain rfl := Option.some.inj hput
    constructor
    · intro other
      rw [contents, contents, resolve_put hreachable, hplace]
      cases hother : d.resolve other with
      | none => simp
      | some q => simp [get?_put]
    · funext other
      rw [isDirectory, isDirectory, resolve_put hreachable, hasDirectory_put hreachable]

end GoldenTrace.Directory
