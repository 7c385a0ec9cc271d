import GoldenTrace.Proofs.Account
import Mathlib.Data.List.Perm.Basic

/-!
# The order of a batch's input

The worklist of a batch holds the first entry of every opcode, in the order of
the opcodes, and nothing else of the input has a part in the result. So a batch
gives the same, report or error, however its entries are arranged, as long as
entries of one opcode keep their order, and whatever later entries of an opcode
are left out.
-/

namespace GoldenTrace.Batch

/-- The same entries in another order, but for those of one opcode, which keep
theirs. -/
structure Rearranged (es es' : List InstructionEntry) : Prop where
  perm : es.Perm es'
  keeps_order : ∀ op, es.filter (fun e => e.opcode = op) = es'.filter fun e => e.opcode = op

/-! ## What decides the worklist -/

theorem mem_worklist_iff {es : List InstructionEntry} {e : InstructionEntry} :
    e ∈ worklist es ↔ es.find? (fun x => x.opcode = e.opcode) = some e := by
  have hfilter : e ∈ worklist es ↔
      e ∈ (worklist es).filter fun x => x.opcode = e.opcode := by
    simp [List.mem_filter]
  rw [hfilter, filter_worklist, Option.mem_toList]

section

variable {α : Type} {key : α → UInt16} {l l' : List α}

theorem nodup_of_increasing (h : l.Pairwise fun a b => key a < key b) : l.Nodup := by
  refine h.imp ?_
  rintro a b hlt rfl
  exact UInt16.lt_irrefl _ hlt

/-- A strict order leaves no choice for how the same elements stand. -/
theorem eq_of_mem_iff (hl : l.Pairwise fun a b => key a < key b)
    (hl' : l'.Pairwise fun a b => key a < key b) (h : ∀ a, a ∈ l ↔ a ∈ l') : l = l' := by
  have hperm : l.Perm l' :=
    (List.perm_ext_iff_of_nodup (nodup_of_increasing hl) (nodup_of_increasing hl')).mpr h
  refine hperm.eq_of_pairwise ?_ hl hl'
  intro a b _ _ hab hba
  exact absurd (UInt16.lt_trans hab hba) (UInt16.lt_irrefl _)

end

/-- Inputs with the same first entry of every opcode have one worklist. -/
theorem worklist_eq_of_find? {es es' : List InstructionEntry}
    (h : ∀ op, es.find? (fun e => e.opcode = op) = es'.find? fun e => e.opcode = op) :
    worklist es = worklist es' := by
  refine eq_of_mem_iff (pairwise_worklist es) (pairwise_worklist es') ?_
  intro e
  rw [mem_worklist_iff, mem_worklist_iff, h]

theorem generate_eq_of_find? {es es' : List InstructionEntry}
    (h : ∀ op, es.find? (fun e => e.opcode = op) = es'.find? fun e => e.opcode = op)
    (options : BatchOptions) : generate es options = generate es' options := by
  rw [generate, generate, worklist_eq_of_find? h]

/-! ## Rearranging and leaving out -/

theorem Rearranged.find?_eq {es es' : List InstructionEntry} (h : Rearranged es es')
    (op : EffectiveOpcode) :
    es.find? (fun e => e.opcode = op) = es'.find? fun e => e.opcode = op := by
  rw [← List.head?_filter, ← List.head?_filter, h.keeps_order op]

/-- An entry behind another of its opcode is the first of none. -/
theorem find?_append_cons {before after : List InstructionEntry} {e : InstructionEntry}
    (h : ∃ x ∈ before, x.opcode = e.opcode) (op : EffectiveOpcode) :
    (before ++ e :: after).find? (fun x => x.opcode = op) =
      (before ++ after).find? fun x => x.opcode = op := by
  rw [List.find?_append, List.find?_append]
  by_cases heq : e.opcode = op
  · rw [heq] at h
    obtain ⟨first, hfirst, -⟩ := exists_first h
    rw [hfirst, Option.some_or, Option.some_or]
  · rw [List.find?_cons_of_neg (by simpa using heq)]

/-- **The order of the input does not matter.** A batch gives the same result on
rearranged entries, and without an entry that is not the first of its opcode. -/
theorem generate_rearranged (options : BatchOptions) :
    (∀ entries entries', Rearranged entries entries' →
      generate entries options = generate entries' options) ∧
    ∀ before e after, (∃ x ∈ before, x.opcode = e.opcode) →
      generate (before ++ e :: after) options = generate (before ++ after) options := by
  constructor
  · intro entries entries' h
    exact generate_eq_of_find? h.find?_eq options
  · intro before e after h
    exact generate_eq_of_find? (find?_append_cons h) options

/-- Neighbours of different opcodes may change places. -/
theorem rearranged_swap {a b : InstructionEntry} (h : a.opcode ≠ b.opcode)
    (before after : List InstructionEntry) :
    Rearranged (before ++ a :: b :: after) (before ++ b :: a :: after) where
  perm := (List.Perm.swap b a after).append_left before
  keeps_order op := by
    rw [List.filter_append, List.filter_append]
    by_cases ha : a.opcode = op
    · have hb : b.opcode ≠ op := fun hb => h (ha.trans hb.symm)
      simp [ha, hb]
    · by_cases hb : b.opcode = op
      · simp [ha, hb]
      · simp [ha, hb]

/-- The sample with its last two entries changed, and without the second entry
of its jump. -/
theorem generate_rearranged_sample :
    generate sample ⟨true, []⟩ =
      generate [sample[0], sample[1], sample[3], sample[2]] ⟨true, []⟩ ∧
    generate sample ⟨true, []⟩ = generate [sample[0], sample[2], sample[3]] ⟨true, []⟩ := by
  constructor
  · exact (generate_rearranged _).1 _ _
      (rearranged_swap (by decide) [sample[0], sample[1]] [])
  · exact (generate_rearranged _).2 [sample[0]] sample[1] [sample[2], sample[3]]
      ⟨sample[0], List.mem_singleton_self _, by decide⟩

end GoldenTrace.Batch
