import GoldenTrace.Proofs.Rearrangement
import Mathlib.Data.Set.Card

/-!
# The verdict of a batch

Two things can end a batch. A malformed entry ends it where it stands; unsupported entries
are counted, and end a strict batch when all have been seen. Only the first entry of an
opcode has a say, and only where the opcode is not left out. Of several that could end the
batch it is the one with the smallest opcode that is named.
-/

namespace GoldenTrace

/-- No instruction is known for the operands. -/
def Descriptor.Unsupported (d : Descriptor) : Prop :=
  ∃ gap, d.assemble = .error (.unsupported gap)

/-- The descriptor contradicts itself. -/
def Descriptor.Malformed (d : Descriptor) : Prop :=
  ∃ defect, d.assemble = .error (.malformed defect)

namespace Batch

/-! ## Entries that have a say -/

/-- The first entry of its opcode, which is not left out. -/
structure Leads (entries : List InstructionEntry) (exclude : List UInt16)
    (e : InstructionEntry) : Prop where
  first : entries.find? (fun x => x.opcode = e.opcode) = some e
  kept : e.opcode.value ∉ exclude

/-- The entry with the smallest opcode of those with a property. -/
structure Smallest (P : InstructionEntry → Prop) (e : InstructionEntry) : Prop where
  holds : P e
  least : ∀ x, P x → e.opcode.value ≤ x.opcode.value

section

variable {entries : List InstructionEntry} {exclude : List UInt16}

theorem mem_kept_worklist_iff {e : InstructionEntry} :
    e ∈ kept exclude (worklist entries) ↔ Leads entries exclude e := by
  rw [mem_kept, mem_worklist_iff]
  constructor
  · rintro ⟨hfirst, hkept⟩
    exact ⟨hfirst, hkept⟩
  · rintro ⟨hfirst, hkept⟩
    exact ⟨hfirst, hkept⟩

/-- A batch goes through its entries by their opcodes, so the first of a kind is the one
with the smallest opcode. -/
theorem smallest_of_split {before after : List InstructionEntry} {e : InstructionEntry}
    {P : Descriptor → Prop} (hsplit : kept exclude (worklist entries) = before ++ e :: after)
    (he : P e.descriptor) (hbefore : ∀ x ∈ before, ¬ P x.descriptor) :
    Smallest (fun x => Leads entries exclude x ∧ P x.descriptor) e := by
  have hsorted := pairwise_kept exclude (pairwise_worklist entries)
  simp only [← mem_kept_worklist_iff]
  rw [hsplit] at hsorted ⊢
  obtain ⟨-, hafter, -⟩ := List.pairwise_append.mp hsorted
  refine ⟨⟨List.mem_append_right _ List.mem_cons_self, he⟩, ?_⟩
  rintro x ⟨hx, hP⟩
  rcases List.mem_append.mp hx with hx | hx
  · exact absurd hP (hbefore x hx)
  · rcases List.mem_cons.mp hx with rfl | hx
    · exact UInt16.le_refl _
    · exact UInt16.le_of_lt ((List.pairwise_cons.mp hafter).1 x hx)

end

/-! ## Refusals of entries -/

/-- The item of an unsupported entry. -/
def item? (e : InstructionEntry) : Option Unsupported :=
  match e.descriptor.assemble with
  | .error (.unsupported gap) => some ⟨e.instruction, e.descriptor.machineCode, gap.message⟩
  | _ => none

section

variable {e : InstructionEntry}

theorem flaw?_eq_some_iff {err : BatchError} :
    flaw? e = some err ↔ ∃ defect, e.descriptor.assemble = .error (.malformed defect) ∧
      err = .malformed e.descriptor.machineCode defect := by
  rw [flaw?, defect?]
  cases e.descriptor.assemble with
  | ok ts => simp
  | error refusal => cases refusal <;> simp [eq_comm]

theorem item?_eq_some_iff {u : Unsupported} :
    item? e = some u ↔ ∃ gap, e.descriptor.assemble = .error (.unsupported gap) ∧
      u = ⟨e.instruction, e.descriptor.machineCode, gap.message⟩ := by
  rw [item?]
  cases e.descriptor.assemble with
  | ok ts => simp
  | error refusal => cases refusal <;> simp [eq_comm]

theorem flaw?_eq_none_iff : flaw? e = none ↔ ¬ e.descriptor.Malformed := by
  rw [Option.eq_none_iff_forall_ne_some]
  constructor
  · rintro h ⟨defect, hdefect⟩
    exact h _ (flaw?_eq_some_iff.mpr ⟨defect, hdefect, rfl⟩)
  · intro h err herr
    obtain ⟨defect, hdefect, -⟩ := flaw?_eq_some_iff.mp herr
    exact h ⟨defect, hdefect⟩

theorem item?_eq_none_iff : item? e = none ↔ ¬ e.descriptor.Unsupported := by
  rw [Option.eq_none_iff_forall_ne_some]
  constructor
  · rintro h ⟨gap, hgap⟩
    exact h _ (item?_eq_some_iff.mpr ⟨gap, hgap, rfl⟩)
  · intro h u hu
    obtain ⟨gap, hgap, -⟩ := item?_eq_some_iff.mp hu
    exact h ⟨gap, hgap⟩

end

theorem flatMap_unsupportedOf (es : List InstructionEntry) :
    es.flatMap unsupportedOf = es.filterMap item? := by
  have hone : ∀ e, unsupportedOf e = (item? e).toList := by
    intro e
    rw [unsupportedOf, item?]
    cases e.descriptor.assemble with
    | ok ts => rfl
    | error refusal => cases refusal <;> rfl
  rw [List.filterMap_eq_flatMap_toList]
  exact congrArg (es.flatMap ·) (funext hone)

section

variable {entries : List InstructionEntry} {exclude : List UInt16}

theorem exists_smallest_malformed {err : BatchError}
    (h : (kept exclude (worklist entries)).findSome? flaw? = some err) :
    ∃ e defect, Smallest (fun x => Leads entries exclude x ∧ x.descriptor.Malformed) e ∧
      e.descriptor.assemble = .error (.malformed defect) ∧
      err = .malformed e.descriptor.machineCode defect := by
  obtain ⟨before, e, after, hsplit, herr, hbefore⟩ := List.findSome?_eq_some_iff.mp h
  obtain ⟨defect, hdefect, herr⟩ := flaw?_eq_some_iff.mp herr
  have hsmallest := smallest_of_split hsplit ⟨defect, hdefect⟩ fun x hx =>
    flaw?_eq_none_iff.mp (hbefore x hx)
  exact ⟨e, defect, hsmallest, hdefect, herr⟩

theorem exists_smallest_unsupported {u : Unsupported} {us : List Unsupported}
    (h : (kept exclude (worklist entries)).filterMap item? = u :: us) :
    ∃ e gap, Smallest (fun x => Leads entries exclude x ∧ x.descriptor.Unsupported) e ∧
      e.descriptor.assemble = .error (.unsupported gap) ∧
      u = ⟨e.instruction, e.descriptor.machineCode, gap.message⟩ := by
  obtain ⟨before, e, after, hsplit, hbefore, hu, -⟩ := List.filterMap_eq_cons_iff.mp h
  obtain ⟨gap, hgap, hu⟩ := item?_eq_some_iff.mp hu
  have hsmallest := smallest_of_split hsplit ⟨gap, hgap⟩ fun x hx =>
    item?_eq_none_iff.mp (hbefore x hx)
  exact ⟨e, gap, hsmallest, hgap, hu⟩

/-- There are as many items as unsupported entries. -/
theorem length_filterMap_item? :
    ((kept exclude (worklist entries)).filterMap item?).length =
      {x | Leads entries exclude x ∧ x.descriptor.Unsupported}.ncard := by
  have hset : {x | Leads entries exclude x ∧ x.descriptor.Unsupported} =
      (((kept exclude (worklist entries)).filter fun x => (item? x).isSome).toFinset :
        Set InstructionEntry) := by
    ext x
    rw [Finset.mem_coe, List.mem_toFinset, List.mem_filter, mem_kept_worklist_iff,
      Option.isSome_iff_ne_none, ne_eq, item?_eq_none_iff, not_not]
    rfl
  have hnodup := nodup_of_increasing (pairwise_kept exclude (pairwise_worklist entries))
  rw [hset, Set.ncard_coe_finset, List.toFinset_card_of_nodup (hnodup.filter _),
    List.length_filterMap_eq_countP, List.countP_eq_length_filter]

end

/-! ## The verdict -/

/-- The results of a batch, by the entries that have a say in it. -/
inductive Verdict (entries : List InstructionEntry) (options : BatchOptions) :
    Except BatchError Report → Prop where
  /-- A malformed entry ends a batch, strict or not, whatever is unsupported beside it. -/
  | malformed {e : InstructionEntry} {defect : Defect}
      (he : Smallest (fun x => Leads entries options.exclude x ∧ x.descriptor.Malformed) e)
      (hdefect : e.descriptor.assemble = .error (.malformed defect)) :
      Verdict entries options (.error (.malformed e.descriptor.machineCode defect))
  /-- A strict batch without such an entry names the first of its unsupported entries, and
  how many there are. -/
  | unsupported {e : InstructionEntry} {gap : Gap}
      (hnone : ∀ x, Leads entries options.exclude x → ¬ x.descriptor.Malformed)
      (hstrict : options.strict = true)
      (he : Smallest (fun x => Leads entries options.exclude x ∧ x.descriptor.Unsupported) e)
      (hgap : e.descriptor.assemble = .error (.unsupported gap)) :
      Verdict entries options (.error (.strict e.descriptor.machineCode
        {x | Leads entries options.exclude x ∧ x.descriptor.Unsupported}.ncard gap.message))
  /-- Otherwise there is the report that there is for a batch that is not strict. -/
  | report {r : Report}
      (hnone : ∀ x, Leads entries options.exclude x → ¬ x.descriptor.Malformed)
      (hsupported : options.strict = true →
        ∀ x, Leads entries options.exclude x → ¬ x.descriptor.Unsupported)
      (hr : generate entries ⟨false, options.exclude⟩ = .ok r) : Verdict entries options (.ok r)

section

variable {entries : List InstructionEntry} {exclude : List UInt16}

theorem generate_of_flaw {err : BatchError}
    (h : (kept exclude (worklist entries)).findSome? flaw? = some err) (strict : Bool) :
    generate entries ⟨strict, exclude⟩ = .error err := by
  rw [generate_eq, through, h]
  rfl

theorem generate_of_no_flaw (h : (kept exclude (worklist entries)).findSome? flaw? = none)
    (strict : Bool) :
    generate entries ⟨strict, exclude⟩ =
      checkStrict strict (adding ⟨[], []⟩ (kept exclude (worklist entries))) := by
  rw [generate_eq, through, h]
  rfl

theorem unsupported_adding (es : List InstructionEntry) :
    (adding ⟨[], []⟩ es).unsupported = es.filterMap item? :=
  flatMap_unsupportedOf es

theorem not_malformed_of_no_flaw (h : (kept exclude (worklist entries)).findSome? flaw? = none) :
    ∀ x, Leads entries exclude x → ¬ x.descriptor.Malformed := by
  intro x hx
  have hmem := mem_kept_worklist_iff.mpr hx
  exact flaw?_eq_none_iff.mp (List.findSome?_eq_none_iff.mp h x hmem)

theorem not_unsupported_of_no_item (h : (kept exclude (worklist entries)).filterMap item? = []) :
    ∀ x, Leads entries exclude x → ¬ x.descriptor.Unsupported := by
  intro x hx
  have hmem := mem_kept_worklist_iff.mpr hx
  exact item?_eq_none_iff.mp (List.filterMap_eq_nil_iff.mp h x hmem)

end

theorem verdict_generate (entries : List InstructionEntry) (options : BatchOptions) :
    Verdict entries options (generate entries options) := by
  obtain ⟨strict, exclude⟩ := options
  cases hflaw : (kept exclude (worklist entries)).findSome? flaw? with
  | some err =>
      obtain ⟨e, defect, he, hdefect, rfl⟩ := exists_smallest_malformed hflaw
      rw [generate_of_flaw hflaw]
      exact .malformed he hdefect
  | none =>
      have hnone := not_malformed_of_no_flaw hflaw
      have hitems := unsupported_adding (kept exclude (worklist entries))
      rw [generate_of_no_flaw hflaw]
      cases strict with
      | false =>
          refine .report hnone ?_ (generate_of_no_flaw hflaw false)
          intro hstrict
          exact absurd hstrict Bool.false_ne_true
      | true =>
          cases hfirst : (kept exclude (worklist entries)).filterMap item? with
          | nil =>
              rw [checkStrict_nil (hitems.trans hfirst)]
              exact .report hnone (fun _ => not_unsupported_of_no_item hfirst)
                (generate_of_no_flaw hflaw false)
          | cons u us =>
              obtain ⟨e, gap, he, hgap, rfl⟩ := exists_smallest_unsupported hfirst
              have hcount : us.length + 1 =
                  {x | Leads entries exclude x ∧ x.descriptor.Unsupported}.ncard := by
                rw [← length_filterMap_item?, hfirst, List.length_cons]
              rw [checkStrict_cons (hitems.trans hfirst), hcount]
              exact .unsupported hnone rfl he hgap

/-- Nothing but the entries that have a say makes a difference. -/
theorem kept_worklist_eq_of_leads {entries entries' : List InstructionEntry}
    {exclude exclude' : List UInt16}
    (h : ∀ e, Leads entries exclude e ↔ Leads entries' exclude' e) :
    kept exclude (worklist entries) = kept exclude' (worklist entries') := by
  refine eq_of_mem_iff (pairwise_kept _ (pairwise_worklist _))
    (pairwise_kept _ (pairwise_worklist _)) ?_
  intro e
  rw [mem_kept_worklist_iff, mem_kept_worklist_iff, h]

/-- The result of a batch, and what decides it. -/
structure Judged (entries : List InstructionEntry) (options : BatchOptions) : Prop where
  verdict : Verdict entries options (generate entries options)
  malformed_iff : (∃ code defect, generate entries options = .error (.malformed code defect)) ↔
    ∃ e, Leads entries options.exclude e ∧ e.descriptor.Malformed
  unsupported_iff :
    (∃ code count reason, generate entries options = .error (.strict code count reason)) ↔
      (∀ e, Leads entries options.exclude e → ¬ e.descriptor.Malformed) ∧
      options.strict = true ∧ ∃ e, Leads entries options.exclude e ∧ e.descriptor.Unsupported
  /-- Entries that are left out, or are not the first of their opcode, are nothing to it. -/
  only_leads : ∀ entries' exclude',
    (∀ e, Leads entries' exclude' e ↔ Leads entries options.exclude e) →
    generate entries' ⟨options.strict, exclude'⟩ = generate entries options

/-- **Which error a batch reports.** A batch is judged by the first entries of the opcodes that are not
left out: by the malformed ones, and by the unsupported ones if there are none of these and
the batch is strict. -/
theorem judged_generate (entries : List InstructionEntry) (options : BatchOptions) :
    Judged entries options := by
  have hverdict := verdict_generate entries options
  refine ⟨hverdict, ?malformed_iff, ?unsupported_iff, ?only_leads⟩
  case malformed_iff =>
    generalize generate entries options = result at hverdict
    constructor
    · rintro ⟨code, defect, rfl⟩
      cases hverdict with
      | malformed he hdefect => exact ⟨_, he.holds⟩
    · rintro ⟨e, hlead, hmalformed⟩
      cases hverdict with
      | malformed he hdefect => exact ⟨_, _, rfl⟩
      | unsupported hnone => exact absurd hmalformed (hnone e hlead)
      | report hnone => exact absurd hmalformed (hnone e hlead)
  case unsupported_iff =>
    generalize generate entries options = result at hverdict
    constructor
    · rintro ⟨code, count, reason, rfl⟩
      cases hverdict with
      | unsupported hnone hstrict he hgap => exact ⟨hnone, hstrict, _, he.holds⟩
    · rintro ⟨hnone, hstrict, e, hlead, hunsupported⟩
      cases hverdict with
      | malformed he hdefect => exact absurd he.holds.2 (hnone _ he.holds.1)
      | unsupported _ _ he hgap => exact ⟨_, _, _, rfl⟩
      | report _ hsupported => exact absurd hunsupported (hsupported hstrict e hlead)
  case only_leads =>
    intro entries' exclude' h
    rw [generate_eq, generate_eq, kept_worklist_eq_of_leads h]

/-- The malformed entry of the sample is shadowed, so a strict batch names the restart. -/
example : ∃ reason, generate sample ⟨true, [0x00]⟩ = .error (.strict 0xC7 1 reason) := by
  rw [generate_eq, kept_worklist_sample]
  exact ⟨_, rfl⟩

end Batch

end GoldenTrace
