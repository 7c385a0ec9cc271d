import GoldenTrace.Instruction.Trace
import GoldenTrace.Proofs.Agreement
import Mathlib.Data.List.Nodup

/-!
# Every target once a cycle

In the trace of an instruction, no target receives more than one value in the
same machine cycle. So no cycle of a generated case has a contested target, and
the order of its steps is free.
-/

namespace GoldenTrace

namespace Queue

/-! ## Queues that write every target once a cycle -/

/-- No target receives two values in one cycle. `seen` holds the targets that
have received a value in the first cycle already. -/
def Distinct (seen : List Target) : Queue → Prop
  | [] => True
  | .write w :: q => w.target ∉ seen ∧ Distinct (w.target :: seen) q
  | .halt :: q => Distinct [] q
  | .suspend _ :: q => Distinct seen q

/-- One step on the way from the scan to the cycles: what is seen in the scan is
what stands in the same cycle before. -/
theorem Distinct.cycles {seen : List Target} {q : Queue} (h : Distinct seen q) :
    ∃ c cs, q.cycles = c :: cs ∧ (∀ w ∈ c.writes, w.target ∉ seen) ∧
      ∀ d ∈ c :: cs, (d.writes.map Write.target).Nodup := by
  induction q generalizing seen with
  | nil => exact ⟨[], [], rfl, by simp, by simp⟩
  | cons step q ih =>
      cases step with
      | write w =>
          obtain ⟨hw, hq⟩ := h
          obtain ⟨c, cs, hcycles, hseen, hnodup⟩ := ih hq
          refine ⟨.write w :: c, cs, segments_cons_keep rfl hcycles, ?_, ?_⟩
          · rw [writes_write, List.forall_mem_cons]
            exact ⟨hw, fun v hv hmem => hseen v hv (List.mem_cons_of_mem _ hmem)⟩
          · rw [List.forall_mem_cons] at hnodup ⊢
            refine ⟨?_, hnodup.2⟩
            rw [writes_write, List.map_cons, List.nodup_cons]
            refine ⟨?_, hnodup.1⟩
            intro hmem
            obtain ⟨v, hv, heq⟩ := List.mem_map.mp hmem
            exact hseen v hv (heq ▸ List.mem_cons_self)
      | halt =>
          obtain ⟨c, cs, hcycles, -, hnodup⟩ := ih h
          refine ⟨[], c :: cs, ?_, by simp, ?_⟩
          · rw [← hcycles]
            exact segments_cons_cut rfl q
          · rw [List.forall_mem_cons]
            exact ⟨List.nodup_nil, hnodup⟩
      | suspend s =>
          obtain ⟨c, cs, hcycles, hseen, hnodup⟩ := ih h
          refine ⟨.suspend s :: c, cs, segments_cons_keep rfl hcycles, hseen, ?_⟩
          rw [List.forall_mem_cons] at hnodup ⊢
          exact hnodup

theorem Distinct.nodup {q : Queue} (h : Distinct [] q) :
    ∀ c ∈ q.cycles, (c.writes.map Write.target).Nodup := by
  obtain ⟨c, cs, hcycles, -, hnodup⟩ := h.cycles
  rw [hcycles]
  exact hnodup

/-- Where every target is written once a cycle, none is contested. -/
theorem Distinct.not_contested {q : Queue} (h : Distinct [] q) :
    ∀ c ∈ q.cycles, ¬ Contested c := by
  rintro c hc ⟨w, hw, v, hv, htarget, hvalue⟩
  have heq : v = w := List.inj_on_of_nodup_map (h.nodup c hc) hv hw htarget
  exact hvalue (congrArg Write.value heq)

@[simp] theorem distinct_nil (seen : List Target) : Distinct seen [] :=
  trivial

@[simp] theorem distinct_write {seen : List Target} {w : Write} {q : Queue} :
    Distinct seen (.write w :: q) ↔ w.target ∉ seen ∧ Distinct (w.target :: seen) q :=
  .rfl

@[simp] theorem distinct_halt {seen : List Target} {q : Queue} :
    Distinct seen (.halt :: q) ↔ Distinct [] q :=
  .rfl

@[simp] theorem distinct_suspend {seen : List Target} {s : Suspend} {q : Queue} :
    Distinct seen (.suspend s :: q) ↔ Distinct seen q :=
  .rfl

/-- Only the targets before count, not their order or number. -/
theorem Distinct.anti {seen seen' : List Target} {q : Queue} (h : Distinct seen q)
    (hsub : seen' ⊆ seen) : Distinct seen' q := by
  induction q generalizing seen seen' with
  | nil => trivial
  | cons step q ih =>
      cases step with
      | write w => exact ⟨fun hmem => h.1 (hsub hmem), ih h.2 (List.cons_subset_cons _ hsub)⟩
      | halt => exact h
      | suspend s => exact ih h hsub

theorem distinct_ofWrites_append {seen : List Target} {ws : List Write} {q : Queue}
    (hnodup : (ws.map Write.target).Nodup) (hseen : ∀ w ∈ ws, w.target ∉ seen)
    (hq : Distinct (ws.map Write.target ++ seen) q) : Distinct seen (ofWrites ws ++ q) := by
  induction ws generalizing seen with
  | nil => exact hq
  | cons w ws ih =>
      obtain ⟨hw, hseen⟩ := List.forall_mem_cons.mp hseen
      obtain ⟨hnew, hnodup⟩ := List.nodup_cons.mp hnodup
      refine ⟨hw, ih hnodup ?_ (hq.anti ?_)⟩
      · intro v hv hmem
        rcases List.mem_cons.mp hmem with heq | hmem
        · exact hnew (heq ▸ List.mem_map_of_mem hv)
        · exact hseen v hv hmem
      · intro t ht
        simp only [List.mem_append, List.mem_cons, List.map_cons] at ht ⊢
        tauto

/-- The flags of an update are written from the highest down, each at most once. -/
theorem targets_writes (u : FlagUpdate) :
    u.writes.map Write.target =
      (Flag.order.filter fun f => (u.get f).isSome).map Target.flag := by
  have hstep : ∀ fs : List Flag,
      (fs.filterMap fun f => (u.get f).map (Write.setFlag f)).map Write.target =
        (fs.filter fun f => (u.get f).isSome).map Target.flag := by
    intro fs
    induction fs with
    | nil => rfl
    | cons f fs ih =>
        cases h : u.get f with
        | none => simpa [h] using ih
        | some b => simpa [h, Write.setFlag, Write.target] using ih
  exact hstep Flag.order

/-- After the flags of an update, only flags are seen beside what was before. -/
@[simp] theorem distinct_ofFlags_append {seen : List Target} {u : FlagUpdate} {q : Queue}
    (hseen : ∀ f, Target.flag f ∉ seen) (hq : Distinct (Flag.order.map Target.flag ++ seen) q) :
    Distinct seen (ofFlags u ++ q) := by
  refine distinct_ofWrites_append ?_ ?_ (hq.anti ?_)
  · rw [targets_writes]
    have horder : Flag.order.Nodup := by decide
    exact (horder.filter _).map fun _ _ h => Target.flag.inj h
  · intro w hw
    have hmem : w.target ∈ u.writes.map Write.target := List.mem_map_of_mem hw
    rw [targets_writes] at hmem
    obtain ⟨f, -, heq⟩ := List.mem_map.mp hmem
    exact heq ▸ hseen f
  · rw [targets_writes]
    have hfilter : (Flag.order.filter fun f => (u.get f).isSome) ⊆ Flag.order :=
      List.filter_subset_self _
    have hflags := List.map_subset Target.flag hfilter
    exact List.append_subset.mpr ⟨List.subset_append_of_subset_left _ hflags,
      List.subset_append_right _ _⟩

@[simp] theorem distinct_ofFlags {seen : List Target} {u : FlagUpdate}
    (hseen : ∀ f, Target.flag f ∉ seen) : Distinct seen (ofFlags u) := by
  have h : Distinct seen (ofFlags u ++ []) := distinct_ofFlags_append hseen trivial
  rwa [List.append_nil] at h

/-- The cycles that read the stream are complete. -/
theorem distinct_fetch_append (pc : UInt16) (bytes : List UInt8) {q : Queue}
    (hq : Distinct [] q) : Distinct [] (fetch pc bytes ++ q) := by
  induction bytes generalizing pc with
  | nil => exact hq
  | cons b bytes ih => simpa [fetch, Write.target] using ih (pc + 1)

end Queue

/-! ## The traces of instructions -/

namespace Instruction

open Queue

theorem distinct_aluEffect (p : Preset) (lead : UInt8) (op : AluOp) (source : Source) :
    Distinct [] (aluEffect p lead op source) := by
  -- a comparison has no write to the accumulator, so the shape depends on `op`
  rcases source with (r | rr) | v <;> cases op <;>
    simp [aluEffect, busRead, restoreBuses, Write.target]

theorem distinct_step8Effect (p : Preset) (lead : UInt8) (s : Step) (place : Place) :
    Distinct [] (step8Effect p lead s place) := by
  cases place <;> simp [step8Effect, busRead, restoreBuses, Write.target]

theorem distinct_adjustEffect (p : Preset) (a : Adjustment) :
    Distinct [] (adjustEffect p a) := by
  cases a <;> simp [adjustEffect, Write.target]

theorem distinct_addHlEffect (p : Preset) (rr : Reg16) : Distinct [] (addHlEffect p rr) := by
  simp [addHlEffect, Write.target]

theorem distinct_addSpEffect (p : Preset) (d : Int8) : Distinct [] (addSpEffect p d) := by
  simp [addSpEffect, Write.target]

theorem distinct_bitwiseEffect (p : Preset) (op : BitOp) (bit : UInt8) (place : Place) :
    Distinct [] (bitwiseEffect p op bit place) := by
  cases op <;> cases place <;> simp [bitwiseEffect, Place.access, Place.store, Write.target]

theorem distinct_rotateAEffect (p : Preset) (op : RotateOp) :
    Distinct [] (rotateAEffect p op) := by
  simp [rotateAEffect, Write.target]

theorem distinct_rotateEffect (p : Preset) (op : RotateOp) (place : Place) :
    Distinct [] (rotateEffect p op place) := by
  cases place <;> simp [rotateEffect, Place.access, Place.store, Write.target]

theorem distinct_loadEffect (p : Preset) (l : Load) : Distinct [] (loadEffect p l) := by
  cases l
  case fromPointer dst ptr step => cases step <;> simp [loadEffect, stepPointer, Write.target]
  case toPointer ptr src step => cases step <;> simp [loadEffect, stepPointer, Write.target]
  all_goals simp [loadEffect, popWord, pushWord, ofWrites, hlFromStackEffect, Write.target]

theorem distinct_transferEffect (p : Preset) (length : Nat) (t : Transfer) :
    Distinct [] (transferEffect p length t) := by
  cases t <;>
    simp [transferEffect, jumpTo, popWord, pushWord, ofWrites, Write.setIme, Write.target]

theorem distinct_controlEffect (op : ControlOp) : Distinct [] (controlEffect op) := by
  cases op <;> simp [controlEffect]

/-- An effect by itself writes every target once a cycle. -/
theorem distinct_effect (p : Preset) (e : Encoding) (i : Instruction) :
    Distinct [] (i.effect p e) := by
  cases i with
  | alu op source => exact distinct_aluEffect p e.lead op source
  | step8 s place => exact distinct_step8Effect p e.lead s place
  | adjust a => exact distinct_adjustEffect p a
  | step16 s rr => simp [effect]
  | addHl rr => exact distinct_addHlEffect p rr
  | addSp d => exact distinct_addSpEffect p d
  | bitwise op bit place => exact distinct_bitwiseEffect p op bit place
  | load l => exact distinct_loadEffect p l
  | transfer t => exact distinct_transferEffect p e.length t
  | rotateA op => exact distinct_rotateAEffect p op
  | rotate op place => exact distinct_rotateEffect p op place
  | control op => exact distinct_controlEffect op

/-- The opening of a trace ends with a cycle, so what follows starts one. -/
theorem distinct_opening_append (p : Preset) (e : Encoding) (i : Instruction) {q : Queue}
    (hq : Distinct [] q) : Distinct [] (i.opening p e ++ q) := by
  have hdelay : Distinct [] (i.delay ++ q) := by
    rw [delay.eq_def]
    split
    · exact hq
    · exact hq
  rw [opening, List.append_assoc]
  exact distinct_fetch_append _ _ hdelay

/-- **Every trace of an instruction writes every target once a cycle.** -/
theorem distinct_of_mem_traces {e : Encoding} {i : Instruction} {t : Trace}
    (h : t ∈ i.traces e) : Distinct [] t.queue := by
  have hexecution (p : Preset) : Distinct [] (i.execution p e) :=
    distinct_opening_append p e i (distinct_effect p e i)
  have hopening (p : Preset) : Distinct [] (i.opening p e) := by
    have hnil := distinct_opening_append p e i (distinct_nil [])
    rwa [List.append_nil] at hnil
  rw [traces] at h
  split at h
  · rw [List.mem_singleton.mp h]
    exact hexecution _
  · rcases List.mem_cons.mp h with rfl | h
    · exact hexecution _
    · rw [List.mem_singleton.mp h]
      exact hopening _

end Instruction

end GoldenTrace
