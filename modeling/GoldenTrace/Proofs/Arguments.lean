import GoldenTrace.CommandLine.Arguments
import GoldenTrace.Proofs.Names

/-!
# Opcodes among the arguments

The printed form of an opcode is read back by the command line. An opcode to leave out may
stand in front of all other arguments of a request and changes nothing else about it: only an
option that is given at most once looks at the values before, and `exclude` is not such an
option.
-/

namespace GoldenTrace.CommandLine

/-! ## Opcodes -/

/-- Two digits or four, an opcode is read back. -/
theorem parseOpcode_display (op : EffectiveOpcode) : parseOpcode op.display = some op.value := by
  have hlt : op.value.toNat < 0x10000 := op.value.toNat_lt
  have hmark : Text.afterHexMark op.display.toList =
      some (Text.hex (if op.onPage then 4 else 2) op.value.toNat) := by
    rw [EffectiveOpcode.toList_display]
    rfl
  rw [parseOpcode, hmark, Option.getD_some, Text.readNumeral_hex]
  simp only [Option.bind_some, if_pos hlt, UInt16.ofNat_toNat]

/-- What is read as an opcode is no option. -/
theorem not_hyphen_of_parseOpcode {text : String} {n : UInt16} (h : parseOpcode text = some n)
    (cs : List Char) : text.toList ≠ '-' :: cs := by
  intro htext
  have hnone : Text.readNumeral 16 ('-' :: cs) = none := rfl
  have hmark : Text.afterHexMark ('-' :: cs) = none := rfl
  rw [parseOpcode, htext, hmark, Option.getD_none, hnone] at h
  cases h

/-! ## Values in front -/

/-- What has been sorted out, with a value in front of all others. -/
def Sorted.before (v : String × String) (s : Sorted) : Sorted :=
  { s with values := v :: s.values }

section

variable (g : Grammar) (v : String × String) (s : Sorted)

theorem addPositional_before (arg : String) :
    (s.before v).addPositional g arg = (s.addPositional g arg).map (Sorted.before v) := by
  by_cases haccepts : g.accepts s.positionals.length arg = true <;>
    simp [Sorted.addPositional, Sorted.before, Except.map, haccepts]

theorem addFlag_before (name : String) :
    (s.before v).addFlag name = (s.addFlag name).map (Sorted.before v) := by
  have hflag : (s.before v).hasFlag name = s.hasFlag name := rfl
  unfold Sorted.addFlag
  rw [hflag]
  split
  · rfl
  · split
    · rfl
    · by_cases hgiven : s.hasFlag name = true <;> simp [Sorted.before, Except.map, hgiven]

/-- Only an option that is given at most once looks at the values before. -/
theorem addValue_before {o : OptionSpec} (ho : o.arity ≠ .value) (text : String) :
    (s.before v).addValue o text = (s.addValue o text).map (Sorted.before v) := by
  by_cases haccepts : o.accepts text = true <;>
    simp [Sorted.addValue, Sorted.before, Except.map, haccepts, ho]

end

/-- None of the options of a grammar is given at most once with a value. -/
def Grammar.Repeats (g : Grammar) : Prop :=
  ∀ o ∈ g.options, o.arity ≠ .value

section

variable {g : Grammar} (hg : g.Repeats) (v : String × String)

include hg

theorem takeCluster_before (s : Sorted) (letters : List Char) :
    takeCluster g (s.before v) letters =
      (takeCluster g s letters).map fun (s, waiting) => (s.before v, waiting) := by
  induction letters generalizing s with
  | nil => rfl
  | cons c rest ih =>
      rw [takeCluster, takeCluster]
      split
      case h_1 => rfl
      case h_2 o ho =>
        have harity : o.arity ≠ .value := hg o (List.mem_of_find?_eq_some ho)
        split
        case h_1 =>
          rw [addFlag_before]
          cases s.addFlag o.long with
          | error stop => rfl
          | ok s' => exact ih s'
        case h_2 => rfl
        case h_3 =>
          rw [addValue_before v s harity]
          cases s.addValue o _ <;> rfl
        case h_4 =>
          rw [addValue_before v s harity]
          cases s.addValue o _ <;> rfl

omit hg in
/-- The option that waits for its value behind a cluster is one of the grammar. -/
theorem mem_of_takeCluster {s s' : Sorted} {letters : List Char} {o : OptionSpec}
    (h : takeCluster g s letters = .ok (s', some o)) : o ∈ g.options := by
  induction letters generalizing s with
  | nil => cases h
  | cons c rest ih =>
      rw [takeCluster] at h
      split at h
      case h_1 => cases h
      case h_2 found hfound =>
        split at h
        case h_1 =>
          obtain ⟨s₁, -, hrest⟩ := bind_eq_ok_iff.mp h
          exact ih hrest
        case h_2 =>
          cases h
          exact List.mem_of_find?_eq_some hfound
        case h_3 =>
          obtain ⟨s₁, -, hnone⟩ := bind_eq_ok_iff.mp h
          cases hnone
        case h_4 =>
          obtain ⟨s₁, -, hnone⟩ := bind_eq_ok_iff.mp h
          cases hnone

omit hg in
theorem mem_of_shapeOf {s : Sorted} {arg : String} {o : OptionSpec} {attached : Option String}
    (h : shapeOf g s arg = .long o attached) : o ∈ g.options := by
  unfold shapeOf at h
  split at h
  case h_1 => cases h
  case h_2 =>
    dsimp only at h
    split at h
    case h_1 found hfound =>
      cases h
      exact List.mem_of_find?_eq_some hfound
    case h_2 => split at h <;> cases h
  case h_3 => split at h <;> cases h
  case h_4 => cases h

omit hg in
theorem mem_of_takeOption {s s' : Sorted} {arg : String} {o : OptionSpec}
    (h : takeOption g s (shapeOf g s arg) = .ok (s', some o)) : o ∈ g.options := by
  unfold takeOption at h
  split at h
  case h_1 found hshape =>
    split at h
    case h_1 =>
      obtain ⟨s₁, -, hnone⟩ := bind_eq_ok_iff.mp h
      cases hnone
    case h_2 =>
      cases h
      exact mem_of_shapeOf hshape
  case h_2 found text hshape =>
    split at h
    case h_1 => cases h
    case h_2 =>
      obtain ⟨s₁, -, hnone⟩ := bind_eq_ok_iff.mp h
      cases hnone
  case h_3 letters hshape => exact mem_of_takeCluster h
  case h_4 => cases h

theorem takeOption_before (s : Sorted) (arg : String) :
    takeOption g (s.before v) (shapeOf g s arg) =
      (takeOption g s (shapeOf g s arg)).map fun (s, waiting) => (s.before v, waiting) := by
  unfold takeOption
  split
  case h_1 o hshape =>
    split
    case h_1 =>
      rw [addFlag_before]
      cases s.addFlag o.long <;> rfl
    case h_2 => rfl
  case h_2 o text hshape =>
    have harity : o.arity ≠ .value := hg o (mem_of_shapeOf hshape)
    split
    case h_1 => rfl
    case h_2 =>
      rw [addValue_before v s harity]
      cases s.addValue o text <;> rfl
  case h_3 letters hshape => exact takeCluster_before hg v s letters
  case h_4 => rfl

/-- A value in front stays there, and nothing else about the sorting changes. -/
theorem sort_before (s : Sorted) {waiting : Option OptionSpec}
    (hwaiting : ∀ o ∈ waiting, o.arity ≠ .value) (free : Bool) (args : List String) :
    sort g (s.before v) waiting free args =
      (sort g s waiting free args).map (Sorted.before v) := by
  have hnone : ∀ o ∈ (none : Option OptionSpec), o.arity ≠ .value := by
    intro o ho
    cases ho
  -- what waits for its value is an option of the grammar at every argument
  induction args generalizing s waiting free with
  | nil => cases waiting <;> rfl
  | cons arg rest ih =>
      have hshape : shapeOf g (s.before v) arg = shapeOf g s arg := rfl
      unfold sort
      rw [hshape]
      split
      case isTrue =>
        rw [addPositional_before]
        cases s.addPositional g arg with
        | error stop => rfl
        | ok s' => exact ih s' hnone true
      case isFalse =>
        split
        case h_1 o _ =>
          rw [addValue_before v s (hwaiting o rfl)]
          cases s.addValue o arg with
          | error stop => rfl
          | ok s' => exact ih s' hnone false
        case h_2 =>
          rw [addPositional_before]
          cases s.addPositional g arg with
          | error stop => rfl
          | ok s' => exact ih s' hnone _
        case h_3 => rfl
        case h_4 => exact ih s hnone true
        case h_5 =>
          rw [takeOption_before hg]
          cases htaken : takeOption g s (shapeOf g s arg) with
          | error stop => rfl
          | ok taken =>
              obtain ⟨s', waiting'⟩ := taken
              refine ih s' ?_ false
              rintro o rfl
              exact hg o (mem_of_takeOption htaken)

end

/-! ## Opcodes to leave out -/

/-- A request with one more opcode left out, if it is one to generate. -/
def Request.excluding (n : UInt16) : Request → Request
  | .generate input output options layout =>
    .generate input output { options with exclude := n :: options.exclude } layout
  | request => request

theorem repeats_generateGrammar : generateGrammar.Repeats := by
  intro o ho
  simp only [generateGrammar, List.mem_cons, List.not_mem_nil, or_false] at ho
  rcases ho with rfl | rfl | rfl | rfl | rfl <;> exact Arity.noConfusion

section

variable {text : String} {n : UInt16} (h : parseOpcode text = some n)

include h

theorem shapeOf_of_parseOpcode (g : Grammar) (s : Sorted) : shapeOf g s text = .positional := by
  have hne := not_hyphen_of_parseOpcode h
  unfold shapeOf
  split
  case h_1 htext => exact absurd htext (hne _)
  case h_2 htext => exact absurd htext (hne _)
  case h_3 htext => exact absurd htext (hne _)
  case h_4 => rfl

theorem sort_exclude (args : List String) :
    sort generateGrammar .empty none false ("--exclude" :: text :: args) =
      (sort generateGrammar .empty none false args).map (Sorted.before ("exclude", text)) := by
  have hnone : ∀ o ∈ (none : Option OptionSpec), o.arity ≠ .value := by
    intro o ho
    cases ho
  have hadded : Sorted.empty.addValue
      ⟨"exclude", none, .values, fun s => (parseOpcode s).isSome⟩ text =
        .ok (Sorted.empty.before ("exclude", text)) := by
    simp [Sorted.addValue, h, Sorted.empty, Sorted.before]
  rw [← sort_before repeats_generateGrammar _ _ hnone]
  show sort generateGrammar .empty (some _) false (text :: args) = _
  rw [sort.eq_def]
  simp only [shapeOf_of_parseOpcode h, hadded]
  rfl

theorem generateRequest_exclude (s : Sorted) :
    generateRequest (s.before ("exclude", text)) =
      (generateRequest s).map (Request.excluding n) := by
  have hvalues : ((s.before ("exclude", text)).valuesOf "exclude").filterMap parseOpcode =
      n :: (s.valuesOf "exclude").filterMap parseOpcode :=
    List.filterMap_cons_some h
  unfold generateRequest
  rw [hvalues]
  obtain ⟨flags, values, positionals⟩ := s
  rcases positionals with _ | ⟨input, _ | ⟨output, _ | ⟨more, rest⟩⟩⟩ <;> rfl

/-- Given in front, an opcode to leave out is all that a request to generate gains. -/
theorem parse_exclude (args : List String) :
    parse ("generate" :: "--exclude" :: text :: args) =
      (parse ("generate" :: args)).map (Request.excluding n) := by
  show sort generateGrammar .empty none false ("--exclude" :: text :: args) >>= generateRequest =
    (sort generateGrammar .empty none false args >>= generateRequest).map _
  rw [sort_exclude h]
  cases sort generateGrammar .empty none false args with
  | error stop => rfl
  | ok s => exact generateRequest_exclude h s

end

end GoldenTrace.CommandLine
