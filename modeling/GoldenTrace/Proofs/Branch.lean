import GoldenTrace.Proofs.Agreement
import GoldenTrace.Proofs.Duration

/-!
# The two sides of a branch

The sides of a branch start from states that differ in nothing but their flags,
and apart from its condition a transfer of control does not look at flags. So
the side that is not taken is where the taken one begins, and the taken side is
the transfer without the condition.
-/

namespace GoldenTrace

/-! ## States that differ in their flags -/

/-- The state under another name and with other flags. -/
def Preset.withFlags (p : Preset) (name : PresetName) (f : Flags) : Preset :=
  { p with name := name, regs := { p.regs with f := f } }

namespace Instruction

/-- A branch is followed from one state, but for flags. -/
theorem preset_branchPreset (c : Condition) (holds : Bool) :
    ∃ name f, (branchPreset c holds).preset = PresetName.highstack.preset.withFlags name f := by
  have hcases : branchPreset c holds = .highstack ∨ branchPreset c holds = .nznc := by
    rw [branchPreset]
    split
    · exact Or.inl rfl
    · exact Or.inr rfl
  rcases hcases with h | h
  · exact ⟨.highstack, .ofByte 0xF0, by rw [h]; rfl⟩
  · exact ⟨.nznc, .ofByte 0x60, by rw [h]; rfl⟩

/-- The flags of this state decide the condition as they are meant to. -/
theorem holds_branchPreset (c : Condition) (holds : Bool) :
    c.holds (branchPreset c holds).preset.regs.f = holds := by
  cases c <;> cases holds <;> decide

theorem transferEffect_withFlags (p : Preset) (name : PresetName) (f : Flags) (length : Nat)
    (t : Transfer) : transferEffect (p.withFlags name f) length t = transferEffect p length t := by
  cases t <;> rfl

theorem opening_withFlags (p : Preset) (name : PresetName) (f : Flags) (e : Encoding)
    (i : Instruction) : i.opening (p.withFlags name f) e = i.opening p e := rfl

end Instruction

/-! ## Transfers without their condition -/

/-- The transfer that is always taken. -/
def Transfer.unconditional : Transfer → Transfer
  | jump _ a => jump none a
  | jumpHl => jumpHl
  | relative _ d => relative none d
  | call _ a => call none a
  | ret _ => ret none
  | reti => reti
  | restart v => restart v

namespace Instruction

theorem transferEffect_unconditional (p : Preset) (length : Nat) (t : Transfer) :
    transferEffect p length t.unconditional = transferEffect p length t := by
  cases t <;> rfl

theorem Denotes.unconditional {e : Encoding} {kind : JumpKind} {c : Option Condition}
    {target : Option Operand} {t : Transfer}
    (h : Denotes e (.jump kind c target) (transfer t)) :
    Denotes e (.jump kind none target) (transfer t.unconditional) := by
  cases h with
  | jump c a => exact .jump none a
  | jumpHl pointer => exact .jumpHl pointer
  | relative c d => exact .relative none d
  | call c a => exact .call none a
  | ret c => exact .ret none
  | reti => exact .reti
  | restart h => exact .restart h

theorem Denotes.exists_transfer {e : Encoding} {kind : JumpKind} {c : Condition}
    {target : Option Operand} {i : Instruction} (h : Denotes e (.jump kind (some c) target) i) :
    ∃ t, i = transfer t ∧ t.condition? = some c := by
  cases h with
  | jump => exact ⟨_, rfl, rfl⟩
  | relative => exact ⟨_, rfl, rfl⟩
  | call => exact ⟨_, rfl, rfl⟩
  | ret => exact ⟨_, rfl, rfl⟩

theorem Denotes.ne_ret {e : Encoding} {kind : JumpKind} {c : Option Condition}
    {target : Option Operand} {t : Transfer} (h : Denotes e (.jump kind c target) (transfer t))
    (hkind : kind ≠ .ret) (c' : Option Condition) : t ≠ .ret c' := by
  rintro rfl
  cases h
  exact hkind rfl

theorem Denotes.condition?_eq_none {e : Encoding} {op : Operation} {i : Instruction}
    (h : Denotes e op i) (hop : ∀ kind c target, op ≠ .jump kind (some c) target) :
    i.condition? = none := by
  cases hc : i.condition? with
  | none => rfl
  | some c =>
      obtain ⟨kind, target, heq, -⟩ := h.saving hc
      exact absurd heq (hop kind c target)

/-! ## What the sides write -/

theorem target_of_mem_writes_fetch {pc : UInt16} {bytes : List UInt8} {w : Write}
    (h : w ∈ (Queue.fetch pc bytes).writes) : w.target = .pc ∨ w.target = .ir := by
  induction bytes generalizing pc with
  | nil => cases h
  | cons b bytes ih =>
      rw [Queue.fetch, Queue.writes_write, Queue.writes_write, Queue.writes_halt] at h
      rcases List.mem_cons.mp h with rfl | h
      · exact Or.inl rfl
      · rcases List.mem_cons.mp h with rfl | h
        · exact Or.inr rfl
        · exact ih h

/-- Until its condition is known, an instruction only reads its stream. -/
theorem target_of_mem_writes_opening {p : Preset} {e : Encoding} {i : Instruction} {w : Write}
    (h : w ∈ (i.opening p e).writes) : w.target = .pc ∨ w.target = .ir := by
  have hdelay : Queue.writes i.delay = [] := by
    rw [delay.eq_def]
    split <;> rfl
  rw [opening, Queue.writes, List.filterMap_append, List.mem_append] at h
  rcases h with h | h
  · exact target_of_mem_writes_fetch h
  · rw [Queue.writes] at hdelay
    rw [hdelay] at h
    cases h

theorem transferEffect_ne_nil (p : Preset) (length : Nat) (t : Transfer) :
    transferEffect p length t ≠ [] := by
  cases t <;> simp [transferEffect, Queue.jumpTo, Queue.pushWord, Queue.popWord]

/-! ## The traces of a branch -/

section

variable {e : Encoding} {t : Transfer}

/-- Both sides of a branch, as if they were followed from the same state. -/
theorem traces_branch {c : Condition} (hc : t.condition? = some c) :
    (transfer t).traces e =
      [⟨branchPreset c true, some .taken,
        (transfer t).opening PresetName.highstack.preset e ++
          transferEffect PresetName.highstack.preset e.length t⟩,
        ⟨branchPreset c false, some .notTaken,
          (transfer t).opening PresetName.highstack.preset e⟩] := by
  obtain ⟨name, f, htaken⟩ := preset_branchPreset c true
  obtain ⟨name', f', hnot⟩ := preset_branchPreset c false
  have hcondition : (transfer t).condition? = some c := hc
  simp only [traces, hcondition, execution, effect, htaken, hnot, opening_withFlags,
    transferEffect_withFlags]

theorem traces_unconditional (e : Encoding) (t : Transfer) :
    (transfer t.unconditional).traces e =
      [⟨.highstack, none, (transfer t.unconditional).opening PresetName.highstack.preset e ++
        transferEffect PresetName.highstack.preset e.length t⟩] := by
  have hcondition : (transfer t.unconditional).condition? = none := by cases t <;> rfl
  simp only [traces, hcondition, execution, effect, transferEffect_unconditional]
  rfl

/-- A condition takes time only where it delays a return. -/
theorem delay_unconditional (h : ∀ c, t ≠ .ret (some c)) :
    (transfer t.unconditional).delay = (transfer t).delay := by
  cases t with
  | ret c =>
      cases c with
      | none => rfl
      | some c => exact absurd rfl (h c)
  | _ => rfl

theorem immediates_unconditional (t : Transfer) :
    (transfer t.unconditional).immediates = (transfer t).immediates := by
  cases t <;> rfl

theorem fits_unconditional (e : Encoding) (t : Transfer) :
    (transfer t.unconditional).fits e = (transfer t).fits e := by
  rw [fits, fits, immediates_unconditional]

theorem opening_unconditional (p : Preset) (e : Encoding) (h : ∀ c, t ≠ .ret (some c)) :
    (transfer t.unconditional).opening p e = (transfer t).opening p e := by
  simp only [opening, streamLength, immediates_unconditional, delay_unconditional h]

theorem machineCycles_unconditional (h : ∀ c, t ≠ .ret (some c)) :
    (transfer t.unconditional).machineCycles = (transfer t).machineCycles := by
  have heffect : (transfer t.unconditional).effectCycles = (transfer t).effectCycles := by
    cases t <;> rfl
  simp only [machineCycles, streamLength, immediates_unconditional, delay_unconditional h,
    heffect]

end

end Instruction

/-! ## Branches of descriptors -/

namespace Descriptor

/-- The two sides of a descriptor's branch. -/
structure Branches (d : Descriptor) (kind : JumpKind) (c : Condition) (target : Option Operand)
    (taken notTaken : Trace) : Prop where
  outcome_taken : taken.outcome = some .taken
  outcome_notTaken : notTaken.outcome = some .notTaken
  /-- The condition holds in the state that the taken side starts from. -/
  holds : c.holds taken.preset.preset.regs.f = true
  /-- It fails in the state that the other side starts from. -/
  fails : c.holds notTaken.preset.preset.regs.f = false
  /-- The side that is not taken stops where the taken one goes on. -/
  stops : ∃ rest, rest ≠ [] ∧ taken.queue = notTaken.queue ++ rest
  /-- Until it stops it does nothing but read the stream. -/
  reads : ∀ w ∈ notTaken.queue.writes, w.target = .pc ∨ w.target = .ir
  /-- The taken side is what the jump without its condition does. -/
  jumps : kind ≠ .ret → ∃ p, { d with operation := .jump kind none target }.assemble =
    .ok [⟨p, none, taken.queue⟩]
  /-- A return with a condition has one cycle more, behind the fetch of its
  opcode, than one without. -/
  returns : kind = .ret → ∃ p fetch rest, Command.halt ∉ fetch ∧
    taken.queue = fetch ++ .halt :: .halt :: rest ∧
    { d with operation := .jump kind none target, duration := d.duration - 1 }.assemble =
      .ok [⟨p, none, fetch ++ .halt :: rest⟩]

/-- **Branch outcomes.** An accepted jump with a condition has a taken and then
another side; any other accepted descriptor has one trace without an outcome. -/
theorem branches_of_assemble {d : Descriptor} {ts : List Trace} (h : d.assemble = .ok ts) :
    (∀ kind c target, d.operation = .jump kind (some c) target →
      ∃ taken notTaken, ts = [taken, notTaken] ∧ d.Branches kind c target taken notTaken) ∧
    ((∀ kind c target, d.operation ≠ .jump kind (some c) target) →
      ∃ p q, ts = [⟨p, none, q⟩]) := by
  obtain ⟨e, i, he, hdenotes, hfits, hcycles, rfl⟩ := assemble_eq_ok_iff_denotes.mp h
  constructor
  · intro kind c target hop
    rw [hop] at hdenotes
    obtain ⟨t, rfl, hc⟩ := hdenotes.exists_transfer
    refine ⟨_, _, Instruction.traces_branch hc, rfl, rfl, Instruction.holds_branchPreset c true,
      Instruction.holds_branchPreset c false, ⟨_, Instruction.transferEffect_ne_nil _ _ t, rfl⟩,
      fun w hw => Instruction.target_of_mem_writes_opening hw, ?jumps, ?returns⟩
    case jumps =>
      intro hkind
      have ht : ∀ c', t ≠ .ret (some c') := fun c' => hdenotes.ne_ret hkind (some c')
      -- neither the bytes nor the cycles nor what is done depend on the condition
      refine ⟨.highstack, assemble_eq_ok_iff_denotes.mpr ⟨e, .transfer t.unconditional, he,
        hdenotes.unconditional, ?_, ?_, ?_⟩⟩
      · rw [Instruction.fits_unconditional, hfits]
      · rw [Instruction.machineCycles_unconditional ht, hcycles]
      · rw [Instruction.traces_unconditional, Instruction.opening_unconditional _ _ ht]
    case returns =>
      rintro rfl
      obtain ⟨rfl, rfl⟩ : target = none ∧ t = .ret (some c) := by
        cases hdenotes
        exact ⟨rfl, rfl⟩
      -- five cycles with the condition, and one of them is what it delays
      have hless : (d.duration - 1).toNat = 4 := by
        change 5 = d.duration.toNat at hcycles
        rw [UInt8.toNat_sub_of_le _ _ (UInt8.le_iff_toNat_le.mpr (by rw [← hcycles]; decide)),
          ← hcycles]
        rfl
      exact ⟨.highstack, [.write (.pc _), .write (.ir e.lead)], _, by simp, rfl,
        assemble_eq_ok_iff_denotes.mpr
          ⟨e, .transfer (.ret none), he, .ret none, rfl, hless.symm, rfl⟩⟩
  · intro hop
    have hc := hdenotes.condition?_eq_none hop
    rw [Instruction.traces]
    simp only [hc]
    exact ⟨_, _, rfl⟩

/-- `RET` with no condition. -/
def returnSample : Descriptor :=
  ⟨0xC9, 1, 4, .jump .ret none none⟩

theorem assemble_returnSample :
    returnSample.assemble = .ok ((Instruction.transfer (.ret none)).traces ⟨0xC9, []⟩) :=
  assemble_eq_ok_iff_denotes.mpr ⟨⟨0xC9, []⟩, .transfer (.ret none),
    encoding_eq_ok_iff.mpr ⟨by decide, by decide, by decide⟩, .ret none, rfl, rfl, rfl⟩

/-- The jump to an address branches, the return does not. -/
theorem branches_of_assemble_jump :
    (∃ taken notTaken, jumpSample.assemble = .ok [taken, notTaken] ∧
      jumpSample.Branches .jp .notZero (some ⟨.imm16 0xABCD, false⟩) taken notTaken) ∧
    ∃ p q, returnSample.assemble = .ok [⟨p, none, q⟩] := by
  obtain ⟨taken, notTaken, hjump, hbranches⟩ :=
    (branches_of_assemble assemble_jumpSample).1 _ _ _ rfl
  obtain ⟨p, q, hreturn⟩ :=
    (branches_of_assemble assemble_returnSample).2 (fun _ _ _ h => by cases h)
  exact ⟨⟨taken, notTaken, hjump ▸ assemble_jumpSample, hbranches⟩, p, q,
    hreturn ▸ assemble_returnSample⟩

end Descriptor

end GoldenTrace
