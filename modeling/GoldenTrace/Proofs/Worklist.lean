import GoldenTrace.Batch
import Mathlib.Data.List.Basic

/-!
# The worklist of a batch

Sorting keeps the entries of one opcode in the order they were given in, and
dropping repeats keeps the first of them. So the worklist is strictly ordered
by opcodes and holds, for every opcode, the first entry of the input that has
it.
-/

namespace GoldenTrace

theorem EffectiveOpcode.value_inj {op op' : EffectiveOpcode} :
    op.value = op'.value ↔ op = op' := by
  cases op
  cases op'
  exact (mk.injEq _ _).symm.to_iff

namespace Batch

/-! ## Sorting by opcode is stable -/

theorem inOrder_perm (es : List InstructionEntry) : (inOrder es).Perm es :=
  List.mergeSort_perm es _

theorem opcodeLe_trans (a b c : InstructionEntry)
    (hab : decide (a.opcode.value ≤ b.opcode.value) = true)
    (hbc : decide (b.opcode.value ≤ c.opcode.value) = true) :
    decide (a.opcode.value ≤ c.opcode.value) = true := by
  simp only [decide_eq_true_eq] at *
  exact UInt16.le_trans hab hbc

theorem opcodeLe_total (a b : InstructionEntry) :
    (decide (a.opcode.value ≤ b.opcode.value) || decide (b.opcode.value ≤ a.opcode.value)) =
      true := by
  simp only [Bool.or_eq_true, decide_eq_true_eq]
  exact UInt16.le_total a.opcode.value b.opcode.value

theorem pairwise_inOrder (es : List InstructionEntry) :
    (inOrder es).Pairwise fun a b => a.opcode.value ≤ b.opcode.value := by
  have h := List.pairwise_mergeSort opcodeLe_trans opcodeLe_total es
  exact h.imp fun hab => of_decide_eq_true hab

/-- **Stability.** The entries of one opcode come out of the sort as they went
in. -/
theorem filter_inOrder (op : EffectiveOpcode) (es : List InstructionEntry) :
    (inOrder es).filter (fun e => e.opcode = op) = es.filter fun e => e.opcode = op := by
  -- entries of one opcode are in order already, so they stay a sublist
  have hsorted : (es.filter fun e => e.opcode = op).Pairwise fun a b =>
      decide (a.opcode.value ≤ b.opcode.value) = true := by
    refine List.pairwise_of_forall_mem_list ?_
    intro a ha b hb
    have ha := of_decide_eq_true (List.mem_filter.mp ha).2
    have hb := of_decide_eq_true (List.mem_filter.mp hb).2
    rw [ha, hb]
    exact decide_eq_true (UInt16.le_refl _)
  have hsub : (es.filter fun e => e.opcode = op).Sublist (inOrder es) :=
    List.sublist_mergeSort opcodeLe_trans opcodeLe_total hsorted List.filter_sublist
  have hsub' := hsub.filter fun e => decide (e.opcode = op)
  rw [List.filter_filter] at hsub'
  simp only [Bool.and_self] at hsub'
  refine (hsub'.eq_of_length ?_).symm
  exact ((inOrder_perm es).symm.filter _).length_eq

theorem find?_inOrder (op : EffectiveOpcode) (es : List InstructionEntry) :
    (inOrder es).find? (fun e => e.opcode = op) = es.find? fun e => e.opcode = op := by
  rw [← List.head?_filter, ← List.head?_filter, filter_inOrder]

/-! ## Dropping repeats keeps first entries -/

theorem dropRepeats_sublist (last : Option EffectiveOpcode) (es : List InstructionEntry) :
    (dropRepeats last es).Sublist es := by
  induction es generalizing last with
  | nil => exact .slnil
  | cons e es ih =>
      rw [dropRepeats]
      split
      · exact (ih last).cons e
      · exact (ih _).cons_cons e

/-- The first entry of an opcode is never a repeat, unless one was kept before. -/
theorem find?_dropRepeats {op : EffectiveOpcode} {last : Option EffectiveOpcode}
    (h : last ≠ some op) (es : List InstructionEntry) :
    (dropRepeats last es).find? (fun e => e.opcode = op) = es.find? fun e => e.opcode = op := by
  induction es generalizing last with
  | nil => rfl
  | cons e es ih =>
      rw [dropRepeats]
      by_cases heq : e.opcode = op
      · rw [if_neg (heq ▸ h)]
        simp [heq]
      · rw [List.find?_cons_of_neg (by simpa using heq)]
        split
        · exact ih h
        · rw [List.find?_cons_of_neg (by simpa using heq)]
          exact ih (by simpa using heq)

/-- What is kept of sorted entries increases strictly, from beyond the opcode
kept before. -/
theorem pairwise_dropRepeats {last : Option EffectiveOpcode} {es : List InstructionEntry}
    (hes : es.Pairwise fun a b => a.opcode.value ≤ b.opcode.value)
    (hlast : ∀ op ∈ last, ∀ e ∈ es, op.value ≤ e.opcode.value) :
    (dropRepeats last es).Pairwise (fun a b => a.opcode.value < b.opcode.value) ∧
      ∀ op ∈ last, ∀ e ∈ dropRepeats last es, op.value < e.opcode.value := by
  induction es generalizing last with
  | nil => exact ⟨.nil, by simp [dropRepeats]⟩
  | cons e es ih =>
      obtain ⟨he, hes⟩ := List.pairwise_cons.mp hes
      rw [dropRepeats]
      split
      case isTrue h =>
        exact ih hes fun op hop x hx => hlast op hop x (List.mem_cons_of_mem _ hx)
      case isFalse h =>
        have he' : ∀ op ∈ some e.opcode, ∀ x ∈ es, op.value ≤ x.opcode.value := by
          simpa using he
        obtain ⟨hrest, hbeyond⟩ := ih hes he'
        have hbeyond : ∀ x ∈ dropRepeats (some e.opcode) es, e.opcode.value < x.opcode.value :=
          hbeyond e.opcode rfl
        refine ⟨List.pairwise_cons.mpr ⟨hbeyond, hrest⟩, ?_⟩
        intro op hop x hx
        have hle : op.value ≤ e.opcode.value := hlast op hop e List.mem_cons_self
        have hne : op.value ≠ e.opcode.value := by
          intro heq
          rw [EffectiveOpcode.value_inj.mp heq] at hop
          exact h hop
        have hlt : op.value < e.opcode.value := UInt16.lt_of_le_of_ne hle hne
        rcases List.mem_cons.mp hx with rfl | hx
        · exact hlt
        · exact UInt16.lt_trans hlt (hbeyond x hx)

/-! ## The worklist -/

/-- The worklist is strictly ordered by opcodes. -/
theorem pairwise_worklist (es : List InstructionEntry) :
    (worklist es).Pairwise fun a b => a.opcode.value < b.opcode.value :=
  (pairwise_dropRepeats (pairwise_inOrder es) (by simp)).1

theorem mem_of_mem_worklist {e : InstructionEntry} {es : List InstructionEntry}
    (h : e ∈ worklist es) : e ∈ es :=
  (inOrder_perm es).subset ((dropRepeats_sublist none _).subset h)

/-- **First entries.** The worklist has the same entry of every opcode as the
input has first. -/
theorem find?_worklist (op : EffectiveOpcode) (es : List InstructionEntry) :
    (worklist es).find? (fun e => e.opcode = op) = es.find? fun e => e.opcode = op := by
  rw [worklist, find?_dropRepeats (by simp), find?_inOrder]

/-- Among strictly ordered entries there is one of an opcode at most. -/
theorem filter_opcode {es : List InstructionEntry}
    (h : es.Pairwise fun a b => a.opcode.value < b.opcode.value) (op : EffectiveOpcode) :
    es.filter (fun e => e.opcode = op) = (es.find? fun e => e.opcode = op).toList := by
  induction es with
  | nil => rfl
  | cons e es ih =>
      obtain ⟨he, hes⟩ := List.pairwise_cons.mp h
      by_cases heq : e.opcode = op
      · have hrest : es.filter (fun e => e.opcode = op) = [] := by
          rw [List.filter_eq_nil_iff]
          intro x hx
          have hlt := he x hx
          intro hop
          have hop : x.opcode = op := of_decide_eq_true hop
          rw [heq, hop] at hlt
          exact UInt16.lt_irrefl _ hlt
        rw [List.filter_cons_of_pos (by simpa using heq), hrest,
          List.find?_cons_of_pos (by simpa using heq)]
        rfl
      · rw [List.filter_cons_of_neg (by simpa using heq),
          List.find?_cons_of_neg (by simpa using heq)]
        exact ih hes

/-- An opcode that occurs has a first entry. -/
theorem exists_first {op : EffectiveOpcode} {es : List InstructionEntry}
    (h : ∃ e ∈ es, e.opcode = op) :
    ∃ first, es.find? (fun e => e.opcode = op) = some first ∧ first.opcode = op := by
  obtain ⟨e, he, hop⟩ := h
  have hsome : (es.find? fun e => e.opcode = op).isSome = true := by
    rw [List.find?_isSome]
    exact ⟨e, he, decide_eq_true hop⟩
  obtain ⟨first, hfirst⟩ := Option.isSome_iff_exists.mp hsome
  exact ⟨first, hfirst, by simpa using List.find?_some hfirst⟩

/-- The worklist holds the first entry of an opcode, and no other of it. -/
theorem filter_worklist (op : EffectiveOpcode) (es : List InstructionEntry) :
    (worklist es).filter (fun e => e.opcode = op) =
      (es.find? fun e => e.opcode = op).toList := by
  rw [filter_opcode (pairwise_worklist es), find?_worklist]

end Batch

end GoldenTrace
