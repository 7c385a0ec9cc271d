import GoldenTrace.Proofs.Assembly
import GoldenTrace.Proofs.Worklist

/-!
# Every opcode is accounted for

A batch takes the entries of its worklist one by one. What a successful run
leaves is the cases and the unsupported items of the entries that are not left
out, entry after entry; they come out in order, so the last sort of a batch
changes nothing. Since the worklist has the first entry of every opcode, the
report has for every opcode exactly what that entry gives.
-/

namespace GoldenTrace

/-- The opcode that an unsupported item is about. -/
def Unsupported.opcode (u : Unsupported) : EffectiveOpcode :=
  .ofCode u.machineCode

namespace Batch

/-! ## What one entry gives -/

/-- The cases of an entry. -/
def casesOf (e : InstructionEntry) : List TestCase :=
  match e.descriptor.assemble with
  | .ok ts => ts.map (caseOf e)
  | .error _ => []

/-- The unsupported item of an entry, if it is one. -/
def unsupportedOf (e : InstructionEntry) : List Unsupported :=
  match e.descriptor.assemble with
  | .error (.unsupported gap) => [⟨e.instruction, e.descriptor.machineCode, gap.message⟩]
  | _ => []

/-- What ends a batch at an entry. -/
def defect? (e : InstructionEntry) : Option Defect :=
  match e.descriptor.assemble with
  | .error (.malformed defect) => some defect
  | _ => none

theorem casesOf_eq_of_ok {e : InstructionEntry} {ts : List Trace}
    (h : e.descriptor.assemble = .ok ts) : casesOf e = ts.map (caseOf e) := by
  rw [casesOf, h]

theorem opcode_of_mem_casesOf {e : InstructionEntry} {c : TestCase} (h : c ∈ casesOf e) :
    c.opcode = e.opcode := by
  rw [casesOf] at h
  split at h
  · obtain ⟨t, -, rfl⟩ := List.mem_map.mp h
    rfl
  · cases h

theorem opcode_of_mem_unsupportedOf {e : InstructionEntry} {u : Unsupported}
    (h : u ∈ unsupportedOf e) : u.opcode = e.opcode := by
  rw [unsupportedOf] at h
  split at h
  · rw [List.mem_singleton.mp h]
    rfl
  · cases h

theorem take_eq (r : Report) (e : InstructionEntry) :
    take r e =
      match defect? e with
      | some defect => .error (.malformed e.descriptor.machineCode defect)
      | none => .ok ⟨r.cases ++ casesOf e, r.unsupported ++ unsupportedOf e⟩ := by
  rw [take, defect?, casesOf, unsupportedOf]
  cases e.descriptor.assemble with
  | ok ts => simp
  | error refusal => cases refusal <;> simp

/-! ## What a run gives -/

/-- The entries that are not left out. -/
def kept (exclude : List UInt16) (es : List InstructionEntry) : List InstructionEntry :=
  es.filter fun e => !exclude.contains e.opcode.value

/-- The error that an entry with a defect ends a batch with. -/
def flaw? (e : InstructionEntry) : Option BatchError :=
  (defect? e).map (.malformed e.descriptor.machineCode)

/-- A report, and behind it what entries give. -/
def adding (r : Report) (es : List InstructionEntry) : Report :=
  ⟨r.cases ++ es.flatMap casesOf, r.unsupported ++ es.flatMap unsupportedOf⟩

/-- What a batch makes of entries none of which is left out: the first defect ends it. -/
def through (r : Report) (es : List InstructionEntry) : Except BatchError Report :=
  match es.findSome? flaw? with
  | some err => .error err
  | none => .ok (adding r es)

theorem through_nil (r : Report) : through r [] = .ok r := by
  rw [through, List.findSome?_nil, adding, List.flatMap_nil, List.flatMap_nil, List.append_nil,
    List.append_nil]

theorem through_append (r : Report) (es es' : List InstructionEntry) :
    through r (es ++ es') = through r es >>= fun r' => through r' es' := by
  simp only [through, List.findSome?_append]
  cases es.findSome? flaw? with
  | some err => rfl
  | none =>
      have hadding : adding r (es ++ es') = adding (adding r es) es' := by
        simp only [adding, List.flatMap_append, List.append_assoc]
      rw [Option.none_or, hadding]
      rfl

/-- One step of a batch. An entry that is left out leaves the report as it is. -/
theorem step_eq (exclude : List UInt16) (r : Report) (e : InstructionEntry) :
    step exclude r e = through r (kept exclude [e]) := by
  rw [step]
  split
  case isTrue h =>
    have hkept : kept exclude [e] = [] := by simpa [kept] using h
    rw [hkept, through_nil]
  case isFalse h =>
    have hkept : kept exclude [e] = [e] := by simpa [kept] using h
    rw [hkept, take_eq, through, List.findSome?_singleton, flaw?, adding, List.flatMap_singleton,
      List.flatMap_singleton]
    cases defect? e <;> rfl

/-- The whole loop, from any report so far. -/
theorem foldlM_step_eq (exclude : List UInt16) (r : Report) (es : List InstructionEntry) :
    es.foldlM (step exclude) r = through r (kept exclude es) := by
  induction es generalizing r with
  | nil =>
      rw [List.foldlM_nil]
      exact (through_nil r).symm
  | cons e es ih =>
      have hsplit : kept exclude (e :: es) = kept exclude [e] ++ kept exclude es := by
        rw [kept, kept, kept, ← List.filter_append]
        rfl
      rw [List.foldlM_cons, step_eq, hsplit, through_append]
      exact congrArg (through r (kept exclude [e]) >>= ·) (funext ih)

/-! ## The cases come out in order -/

/-- Whether a case stands before another: by opcode, then by outcome. -/
def CaseLt (a b : TestCase) : Prop :=
  a.opcode.value < b.opcode.value ∨ a.opcode = b.opcode ∧ rank a.outcome < rank b.outcome

theorem CaseLt.caseLe {a b : TestCase} (h : CaseLt a b) : caseLe a b = true := by
  rw [Batch.caseLe, decide_eq_true_eq]
  rcases h with h | ⟨hop, hrank⟩
  · exact Or.inl h
  · exact Or.inr ⟨congrArg EffectiveOpcode.value hop, Nat.le_of_lt hrank⟩

/-- The cases of one entry are the taken side of a branch before the other. -/
theorem pairwise_casesOf (e : InstructionEntry) : (casesOf e).Pairwise CaseLt := by
  rw [casesOf]
  split
  case h_1 ts h =>
    have hrank : (ts.map Trace.outcome).Pairwise fun o o' => rank o < rank o' := by
      rcases Descriptor.outcomes_assemble h with ho | ho <;> rw [ho] <;> decide
    rw [List.pairwise_map]
    exact (List.pairwise_map.mp hrank).imp fun hlt => Or.inr ⟨rfl, hlt⟩
  case h_2 => exact .nil

/-- Entries in strict order of opcodes give cases in strict order. -/
theorem pairwise_flatMap_casesOf {es : List InstructionEntry}
    (h : es.Pairwise fun a b => a.opcode.value < b.opcode.value) :
    (es.flatMap casesOf).Pairwise CaseLt := by
  refine List.pairwise_flatMap.mpr ⟨fun e _ => pairwise_casesOf e, ?_⟩
  refine h.imp ?_
  intro a b hab x hx y hy
  refine Or.inl ?_
  rwa [opcode_of_mem_casesOf hx, opcode_of_mem_casesOf hy]

theorem pairwise_flatMap_unsupportedOf {es : List InstructionEntry}
    (h : es.Pairwise fun a b => a.opcode.value < b.opcode.value) :
    (es.flatMap unsupportedOf).Pairwise fun a b => a.opcode.value < b.opcode.value := by
  refine List.pairwise_flatMap.mpr ⟨?_, h.imp ?_⟩
  · intro e _
    rw [unsupportedOf]
    split
    · exact List.pairwise_singleton _ _
    · exact .nil
  · intro a b hab x hx y hy
    rwa [opcode_of_mem_unsupportedOf hx, opcode_of_mem_unsupportedOf hy]

theorem pairwise_kept (exclude : List UInt16) {es : List InstructionEntry}
    (h : es.Pairwise fun a b => a.opcode.value < b.opcode.value) :
    (kept exclude es).Pairwise fun a b => a.opcode.value < b.opcode.value :=
  h.filter _

/-- **The loop.** A batch goes through the entries of its worklist that are not left out, and
fails afterwards if it is strict. Its cases are in order already. -/
theorem generate_eq (entries : List InstructionEntry) (options : BatchOptions) :
    generate entries options =
      through ⟨[], []⟩ (kept options.exclude (worklist entries)) >>=
        checkStrict options.strict := by
  have hsort := List.mergeSort_of_pairwise
    ((pairwise_flatMap_casesOf (pairwise_kept options.exclude
      (pairwise_worklist entries))).imp CaseLt.caseLe)
  rw [generate, collect, foldlM_step_eq, through]
  cases (kept options.exclude (worklist entries)).findSome? flaw? with
  | some err => rfl
  | none =>
      show checkStrict options.strict { adding ⟨[], []⟩ _ with cases := _ } = _
      rw [adding, List.nil_append, hsort]
      rfl

theorem through_eq_ok_iff {r r' : Report} {es : List InstructionEntry} :
    through r es = .ok r' ↔ (∀ e ∈ es, defect? e = none) ∧ r' = adding r es := by
  have hnone : es.findSome? flaw? = none ↔ ∀ e ∈ es, defect? e = none := by
    simp only [List.findSome?_eq_none_iff, flaw?, Option.map_eq_none_iff]
  rw [← hnone, through]
  cases es.findSome? flaw? with
  | some err => simp only [reduceCtorEq, false_and]
  | none => simp only [Except.ok.injEq, true_and, eq_comm]

theorem checkStrict_nil {r : Report} (h : r.unsupported = []) (strict : Bool) :
    checkStrict strict r = .ok r := by
  unfold checkStrict
  rw [h]
  cases strict <;> rfl

theorem checkStrict_cons {r : Report} {u : Unsupported} {us : List Unsupported}
    (h : r.unsupported = u :: us) :
    checkStrict true r = .error (.strict u.machineCode (us.length + 1) u.reason) := by
  unfold checkStrict
  rw [h]

theorem checkStrict_eq_ok_iff {strict : Bool} {r r' : Report} :
    checkStrict strict r = .ok r' ↔ (strict = true → r'.unsupported = []) ∧ r' = r := by
  cases strict with
  | false =>
      show Except.ok r = .ok r' ↔ _
      rw [Except.ok.injEq, eq_comm]
      simp only [Bool.false_eq_true, false_implies, true_and]
  | true =>
      simp only [true_implies]
      cases hu : r.unsupported with
      | nil =>
          rw [checkStrict_nil hu, Except.ok.injEq]
          constructor
          · rintro rfl
            exact ⟨hu, rfl⟩
          · rintro ⟨-, rfl⟩
            rfl
      | cons u us =>
          rw [checkStrict_cons hu]
          simp only [reduceCtorEq, false_iff]
          rintro ⟨hnil, rfl⟩
          rw [hnil] at hu
          cases hu

/-- **The report.** A batch succeeds exactly if no entry it goes through has a
defect and, if it is strict, none is unsupported. Its report is what these
entries give, in their order. -/
theorem generate_eq_ok_iff {entries : List InstructionEntry} {options : BatchOptions}
    {r : Report} :
    generate entries options = .ok r ↔
      (∀ e ∈ kept options.exclude (worklist entries), defect? e = none) ∧
      (options.strict = true → r.unsupported = []) ∧
      r = ⟨(kept options.exclude (worklist entries)).flatMap casesOf,
        (kept options.exclude (worklist entries)).flatMap unsupportedOf⟩ := by
  rw [generate_eq]
  simp only [bind_eq_ok_iff, through_eq_ok_iff, checkStrict_eq_ok_iff]
  constructor
  · rintro ⟨_, ⟨hdefect, rfl⟩, hunsupported, rfl⟩
    exact ⟨hdefect, hunsupported, rfl⟩
  · rintro ⟨hdefect, hunsupported, rfl⟩
    exact ⟨_, ⟨hdefect, rfl⟩, hunsupported, rfl⟩

/-! ## Opcode by opcode -/

section

variable {entries : List InstructionEntry} {exclude : List UInt16}

theorem filter_kept {op : EffectiveOpcode} (h : op.value ∉ exclude)
    (es : List InstructionEntry) :
    (kept exclude es).filter (fun e => e.opcode = op) = es.filter fun e => e.opcode = op := by
  rw [kept, List.filter_filter]
  refine List.filter_congr ?_
  intro e _
  by_cases heq : e.opcode = op
  · simp [heq, h]
  · simp [heq]

/-- What entries give for some opcodes is what their entries of these opcodes give. -/
theorem filter_flatMap {β : Type} {f : InstructionEntry → List β} {key : β → EffectiveOpcode}
    (hkey : ∀ e, ∀ b ∈ f e, key b = e.opcode) (p : EffectiveOpcode → Bool)
    (es : List InstructionEntry) :
    (es.flatMap f).filter (fun b => p (key b)) = (es.filter fun e => p e.opcode).flatMap f := by
  induction es with
  | nil => rfl
  | cons e es ih =>
      rw [List.flatMap_cons, List.filter_append, ih, List.filter_cons]
      by_cases hp : p e.opcode = true
      · rw [if_pos hp, List.flatMap_cons]
        congr 1
        rw [List.filter_eq_self]
        intro b hb
        rw [hkey e b hb, hp]
      · rw [if_neg hp]
        have hnone : (f e).filter (fun b => p (key b)) = [] := by
          rw [List.filter_eq_nil_iff]
          intro b hb
          rwa [hkey e b hb]
        rw [hnone, List.nil_append]

/-- Of an opcode that is not left out, the report has the cases of the first
entry. -/
theorem filter_cases {op : EffectiveOpcode} {e : InstructionEntry} (h : op.value ∉ exclude)
    (he : entries.find? (fun x => x.opcode = op) = some e) :
    ((kept exclude (worklist entries)).flatMap casesOf).filter (fun c => c.opcode = op) =
      casesOf e := by
  rw [filter_flatMap (fun _ _ => opcode_of_mem_casesOf) (fun o => o = op), filter_kept h,
    filter_worklist, he]
  simp

theorem filter_unsupported {op : EffectiveOpcode} {e : InstructionEntry}
    (h : op.value ∉ exclude) (he : entries.find? (fun x => x.opcode = op) = some e) :
    ((kept exclude (worklist entries)).flatMap unsupportedOf).filter (fun u => u.opcode = op) =
      unsupportedOf e := by
  rw [filter_flatMap (fun _ _ => opcode_of_mem_unsupportedOf) (fun o => o = op), filter_kept h,
    filter_worklist, he]
  simp

theorem mem_kept {e : InstructionEntry} {es : List InstructionEntry} :
    e ∈ kept exclude es ↔ e ∈ es ∧ e.opcode.value ∉ exclude := by
  simp [kept]

theorem mem_kept_worklist {op : EffectiveOpcode} {e : InstructionEntry} (h : op.value ∉ exclude)
    (he : entries.find? (fun x => x.opcode = op) = some e) :
    e ∈ kept exclude (worklist entries) := by
  have hmem : e ∈ (kept exclude (worklist entries)).filter fun x => x.opcode = op := by
    rw [filter_kept h, filter_worklist, he]
    exact List.mem_singleton_self e
  exact List.mem_of_mem_filter hmem

end

/-- What a report owes to its entries. -/
structure Accounts (entries : List InstructionEntry) (exclude : List UInt16) (r : Report) :
    Prop where
  /-- The first entry of every opcode that is not left out is in the report:
  either with all its traces as cases or with one unsupported item. -/
  first : ∀ op e, entries.find? (fun x => x.opcode = op) = some e → op.value ∉ exclude →
    (∃ ts, e.descriptor.assemble = .ok ts ∧
      (ts.map Trace.outcome = [none] ∨ ts.map Trace.outcome = [some .taken, some .notTaken]) ∧
      r.cases.filter (fun c => c.opcode = op) =
        ts.map (fun t => ⟨caseName op t.outcome, e.descriptor, t.preset, t.outcome, t.queue⟩) ∧
      r.unsupported.filter (fun u => u.opcode = op) = []) ∨
    ∃ gap, e.descriptor.assemble = .error (.unsupported gap) ∧
      r.cases.filter (fun c => c.opcode = op) = [] ∧
      r.unsupported.filter (fun u => u.opcode = op) =
        [⟨e.instruction, e.descriptor.machineCode, gap.message⟩]
  case_of_entry : ∀ c ∈ r.cases, c.opcode.value ∉ exclude ∧ ∃ e ∈ entries, e.opcode = c.opcode
  unsupported_of_entry : ∀ u ∈ r.unsupported,
    u.opcode.value ∉ exclude ∧ ∃ e ∈ entries, e.opcode = u.opcode
  cases_increasing : r.cases.Pairwise CaseLt
  unsupported_increasing : r.unsupported.Pairwise fun a b => a.opcode.value < b.opcode.value

/-- **Nothing is lost and nothing is made twice.** A report that a batch
returns accounts for all its entries. -/
theorem accounts_of_generate {entries : List InstructionEntry} {options : BatchOptions}
    {r : Report} (h : generate entries options = .ok r) :
    Accounts entries options.exclude r := by
  obtain ⟨hdefect, -, rfl⟩ := generate_eq_ok_iff.mp h
  have hsorted := pairwise_kept options.exclude (pairwise_worklist entries)
  refine ⟨?first, ?case_of_entry, ?unsupported_of_entry, pairwise_flatMap_casesOf hsorted,
    pairwise_flatMap_unsupportedOf hsorted⟩
  case first =>
    intro op e he hop
    have hopcode : e.opcode = op := by simpa using List.find?_some he
    rw [filter_cases hop he, filter_unsupported hop he]
    have hnone := hdefect e (mem_kept_worklist hop he)
    cases hass : e.descriptor.assemble with
    | ok ts =>
        refine Or.inl ⟨ts, rfl, Descriptor.outcomes_assemble hass, ?_, ?_⟩
        · rw [casesOf_eq_of_ok hass, ← hopcode]
          rfl
        · rw [unsupportedOf, hass]
    | error refusal =>
        cases refusal with
        | unsupported gap =>
            refine Or.inr ⟨gap, rfl, ?_, ?_⟩
            · rw [casesOf, hass]
            · rw [unsupportedOf, hass]
        | malformed defect =>
            rw [defect?, hass] at hnone
            cases hnone
  case case_of_entry =>
    intro c hc
    obtain ⟨e, he, hce⟩ := List.mem_flatMap.mp hc
    obtain ⟨he, hop⟩ := mem_kept.mp he
    rw [opcode_of_mem_casesOf hce]
    exact ⟨hop, e, mem_of_mem_worklist he, rfl⟩
  case unsupported_of_entry =>
    intro u hu
    obtain ⟨e, he, hue⟩ := List.mem_flatMap.mp hu
    obtain ⟨he, hop⟩ := mem_kept.mp he
    rw [opcode_of_mem_unsupportedOf hue]
    exact ⟨hop, e, mem_of_mem_worklist he, rfl⟩

/-- A conditional jump and its opcode again on a malformed descriptor, a restart
that cannot have its condition, and an instruction to leave out. -/
def sample : List InstructionEntry :=
  [⟨"C2CDAB", ⟨0xC2CDAB, 3, 4, .jump .jp (some .notZero) (some ⟨.imm16 0xABCD, false⟩)⟩⟩,
    ⟨"C20000", ⟨0xC20000, 3, 0, .control .nop⟩⟩,
    ⟨"C7", ⟨0xC7, 1, 4, .jump .rst (some .zero) none⟩⟩,
    ⟨"00", ⟨0x00, 1, 1, .control .nop⟩⟩]

theorem inOrder_sample :
    inOrder sample = [sample[3], sample[0], sample[1], sample[2]] := by
  simp +decide [inOrder, sample, List.mergeSort, List.MergeSort.Internal.splitInTwo]

/-- Without `00`, a batch goes through the first entry of either opcode. -/
theorem kept_worklist_sample :
    kept [0x00] (worklist sample) = [sample[0], sample[2]] := by
  rw [worklist, inOrder_sample]
  decide +kernel

/-- The sample has a report: both sides of the jump, and the restart. -/
theorem generate_sample :
    ∃ r, generate sample ⟨false, [0x00]⟩ = .ok r ∧
      r.cases.map TestCase.name = ["0xC2_taken", "0xC2_not_taken"] ∧
      r.unsupported.map Unsupported.instruction = ["C7"] := by
  refine ⟨_, generate_eq_ok_iff.mpr ⟨?_, nofun, rfl⟩, ?_, ?_⟩ <;> rw [kept_worklist_sample]
  · decide +kernel
  · decide +kernel
  · decide +kernel

/-- The report of the sample accounts for it. -/
theorem accounts_of_generate_sample :
    ∃ r, generate sample ⟨false, [0x00]⟩ = .ok r ∧
      r.cases.map TestCase.name = ["0xC2_taken", "0xC2_not_taken"] ∧
      r.unsupported.map Unsupported.instruction = ["C7"] ∧ Accounts sample [0x00] r := by
  obtain ⟨r, h, hcases, hunsupported⟩ := generate_sample
  exact ⟨r, h, hcases, hunsupported, accounts_of_generate h⟩

end Batch

end GoldenTrace
