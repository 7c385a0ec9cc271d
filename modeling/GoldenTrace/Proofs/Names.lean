import GoldenTrace.Proofs.Account
import GoldenTrace.Proofs.Numeral
import Mathlib.Data.List.Nodup

/-!
# Names of cases

The name of a case tells its opcode and its outcome: the opcode stands before
the first underscore, which no numeral has. Since the cases of a report are in
strict order of opcodes and outcomes, no two of them share a name.
-/

namespace GoldenTrace

theorem EffectiveOpcode.toList_display (op : EffectiveOpcode) :
    op.display.toList =
      '0' :: 'x' :: Text.hex (if op.onPage then 4 else 2) op.value.toNat := by
  rw [display, Text.hexLiteral, String.toList_ofList]

/-- Different opcodes are displayed differently. -/
theorem EffectiveOpcode.display_injective {op op' : EffectiveOpcode}
    (h : op.display = op'.display) : op = op' := by
  have hlist := congrArg String.toList h
  rw [toList_display, toList_display, List.cons.injEq, List.cons.injEq] at hlist
  exact value_inj.mp (UInt16.toNat_inj.mp (Text.hex_injective hlist.2.2))

theorem EffectiveOpcode.ne_underscore {op : EffectiveOpcode} {c : Char}
    (h : c ∈ op.display.toList) : c ≠ '_' := by
  have hdigit : ∀ k < 16, Text.digit k ≠ '_' := by decide
  rw [toList_display, List.mem_cons, List.mem_cons] at h
  rcases h with rfl | rfl | h
  · decide
  · decide
  · obtain ⟨k, hk, rfl⟩ := Text.mem_hex h
    exact hdigit k hk

namespace Batch

/-- What the outcome adds to a name. -/
def suffix : Option Outcome → List Char
  | none => []
  | some o => '_' :: (Named.name o).toList

theorem toList_caseName (op : EffectiveOpcode) (o : Option Outcome) :
    (caseName op o).toList = op.display.toList ++ suffix o := by
  cases o with
  | none => rw [caseName, suffix, List.append_nil]
  | some o =>
      rw [caseName, String.toList_append, String.toList_append, List.append_assoc]
      rfl

theorem suffix_injective {o o' : Option Outcome} (h : suffix o = suffix o') : o = o' := by
  rcases o with _ | (_ | _) <;> rcases o' with _ | (_ | _) <;>
    first | rfl | exact absurd h (by decide)

/-- The opcode is what stands before the underscore. -/
theorem takeWhile_caseName (op : EffectiveOpcode) (o : Option Outcome) :
    (caseName op o).toList.takeWhile (· != '_') = op.display.toList := by
  have hop : ∀ c ∈ op.display.toList, (c != '_') = true :=
    fun c hc => bne_iff_ne.mpr (EffectiveOpcode.ne_underscore hc)
  rw [toList_caseName, List.takeWhile_append_of_pos hop]
  cases o with
  | none => exact List.append_nil _
  | some o => exact List.append_nil _

/-- A name belongs to one opcode and one outcome. -/
theorem caseName_injective {op op' : EffectiveOpcode} {o o' : Option Outcome}
    (h : caseName op o = caseName op' o') : op = op' ∧ o = o' := by
  have hdisplay : op.display.toList = op'.display.toList := by
    rw [← takeWhile_caseName op o, h, takeWhile_caseName]
  have hop : op = op' := EffectiveOpcode.display_injective (String.toList_inj.mp hdisplay)
  refine ⟨hop, suffix_injective ?_⟩
  have hlist := congrArg String.toList h
  rw [toList_caseName, toList_caseName, hdisplay] at hlist
  exact List.append_cancel_left hlist

theorem name_of_mem_casesOf {e : InstructionEntry} {c : TestCase} (h : c ∈ casesOf e) :
    c.name = caseName c.opcode c.outcome := by
  rw [casesOf] at h
  split at h
  · obtain ⟨t, -, rfl⟩ := List.mem_map.mp h
    rfl
  · cases h

section

variable {entries : List InstructionEntry} {options : BatchOptions} {r : Report}

/-- Every case is one of an entry that the batch went through. -/
theorem mem_casesOf_of_generate (h : generate entries options = .ok r) {c : TestCase}
    (hc : c ∈ r.cases) : ∃ e ∈ entries, c ∈ casesOf e := by
  obtain ⟨-, -, rfl⟩ := generate_eq_ok_iff.mp h
  obtain ⟨e, he, hce⟩ := List.mem_flatMap.mp hc
  exact ⟨e, mem_of_mem_worklist (mem_kept.mp he).1, hce⟩

/-- No two cases of a report have the same name. -/
theorem nodup_names (h : generate entries options = .ok r) :
    (r.cases.map TestCase.name).Nodup := by
  have hname : ∀ c ∈ r.cases, c.name = caseName c.opcode c.outcome := by
    intro c hc
    obtain ⟨e, -, hce⟩ := mem_casesOf_of_generate h hc
    exact name_of_mem_casesOf hce
  have hlt : r.cases.Pairwise CaseLt := by
    obtain ⟨-, -, rfl⟩ := generate_eq_ok_iff.mp h
    exact pairwise_flatMap_casesOf (pairwise_kept _ (pairwise_worklist entries))
  rw [List.Nodup, List.pairwise_map]
  refine hlt.imp_of_mem ?_
  intro a b ha hb hab heq
  -- with equal names, neither case could stand before the other
  rw [hname a ha, hname b hb] at heq
  obtain ⟨hop, houtcome⟩ := caseName_injective heq
  rcases hab with hlt | ⟨-, hlt⟩
  · exact absurd hlt (by rw [hop]; exact UInt16.lt_irrefl _)
  · exact absurd hlt (by rw [houtcome]; exact Nat.lt_irrefl _)

/-- A case of a report is found by its name. -/
theorem find?_name (h : generate entries options = .ok r) {c : TestCase} (hc : c ∈ r.cases) :
    (r.cases.find? fun d => d.name == c.name) = some c := by
  cases hfind : r.cases.find? fun d => d.name == c.name with
  | none =>
      have hne := List.find?_eq_none.mp hfind c hc
      exact absurd (beq_self_eq_true c.name) hne
  | some d =>
      have hname : d.name = c.name := by simpa using List.find?_some hfind
      have hd : d ∈ r.cases := List.mem_of_find?_eq_some hfind
      rw [List.inj_on_of_nodup_map (nodup_names h) hd hc hname]

end

end Batch

end GoldenTrace
