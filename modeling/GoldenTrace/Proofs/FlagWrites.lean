import GoldenTrace.Proofs.Stream

/-!
# Which flags are written, and when

The flags that an operation writes stand in a table here, cycle by cycle. An
operation that reports to flags does so in one cycle, or in two that follow each
other, and the traces write no other flag. Within a cycle flags come from the
highest down.
-/

namespace GoldenTrace

/-! ## The table -/

/-- The flags that an operation writes, for each of the cycles that write any. -/
def Operation.flagTable : Operation → List (List Flag)
  | arithmetic8 op _ _ =>
    match op with
    | .inc | .dec => [[.z, .n, .h]]
    | .daa => [[.z, .h, .c]]
    | .cpl => [[.n, .h]]
    | .scf | .ccf => [[.n, .h, .c]]
    | _ => [[.z, .n, .h, .c]]
  | arithmetic16 .add (some ⟨.register16 .hl, false⟩) _ => [[.n, .h, .c], [.n, .h, .c]]
  | arithmetic16 .add (some ⟨.register16 .sp, false⟩) _ => [[.z, .n, .h, .c]]
  | bitwise .bit _ _ => [[.z, .n, .h]]
  | load (some ⟨.register16 .hl, false⟩) (some ⟨.register16 .sp, false⟩) (.addSigned _) =>
    [[.z, .n, .h, .c]]
  | rotate _ _ => [[.z, .n, .h, .c]]
  | _ => []

/-! ## Flags of updates -/

/-- The flag that is written and what it gets. -/
def Write.flag? : Write → Option (Flag × UInt8)
  | flag f v => some (f, v)
  | register8 .. | register16 .. | memory .. | ime _ | addressBus _ | dataBus _ | pc _ | ir _ =>
    none

theorem Write.flag?_eq_some_iff {w : Write} {f : Flag} {v : UInt8} :
    w.flag? = some (f, v) ↔ w = flag f v := by
  cases w <;> simp [flag?]

namespace FlagUpdate

def flagWrites (u : FlagUpdate) : List (Flag × UInt8) :=
  u.writes.filterMap Write.flag?

/-- The flags that the update writes, in order. -/
def flags (u : FlagUpdate) : List Flag :=
  u.flagWrites.map Prod.fst

theorem flags_sublist (u : FlagUpdate) : u.flags.Sublist Flag.order := by
  have hflags : u.flags = Flag.order.filter fun f => (u.get f).isSome := by
    obtain ⟨z, n, h, c⟩ := u
    cases z <;> cases n <;> cases h <;> cases c <;> rfl
  rw [hflags]
  exact List.filter_sublist

theorem bit_of_mem_flagWrites {u : FlagUpdate} {f : Flag} {v : UInt8} (h : (f, v) ∈ u.flagWrites) :
    v = 0 ∨ v = 1 := by
  obtain ⟨w, hw, hflag⟩ := List.mem_filterMap.mp h
  obtain ⟨g, b, -, rfl⟩ := mem_writes.mp hw
  cases hflag
  cases b with
  | false => exact Or.inl rfl
  | true => exact Or.inr rfl

end FlagUpdate

namespace Queue

/-! ## Flags of cycles -/

/-- The flags that are written in a cycle, with what they get. -/
def flagWrites (cycle : Queue) : List (Flag × UInt8) :=
  cycle.writes.filterMap Write.flag?

def flagCycles (q : Queue) : List (List (Flag × UInt8)) :=
  q.cycles.map flagWrites

theorem mem_flagWrites {cycle : Queue} {f : Flag} {v : UInt8} :
    (f, v) ∈ cycle.flagWrites ↔ .write (.flag f v) ∈ cycle := by
  rw [flagWrites, List.mem_filterMap, ← mem_writes]
  constructor
  · rintro ⟨w, hw, hflag⟩
    rwa [Write.flag?_eq_some_iff.mp hflag] at hw
  · intro h
    exact ⟨_, h, rfl⟩

@[simp] theorem flagCycles_nil : flagCycles [] = [[]] := rfl

@[simp] theorem flagCycles_halt (q : Queue) : flagCycles (.halt :: q) = [] :: flagCycles q := by
  rw [flagCycles, cycles_halt]
  rfl

@[simp] theorem flagCycles_suspend (s : Suspend) (q : Queue) :
    flagCycles (.suspend s :: q) = flagCycles q := by
  obtain ⟨c, cs, hq⟩ := List.exists_cons_of_ne_nil q.cycles_ne_nil
  rw [flagCycles, flagCycles, cycles_step rfl, hq]
  rfl

@[simp] theorem flagCycles_write (w : Write) (q : Queue) :
    flagCycles (.write w :: q) = (flagCycles q).modifyHead (w.flag?.toList ++ ·) := by
  obtain ⟨c, cs, hq⟩ := List.exists_cons_of_ne_nil q.cycles_ne_nil
  rw [flagCycles, flagCycles, cycles_step rfl, hq]
  cases hw : w.flag? <;> simp [flagWrites, hw]

theorem flagCycles_ofWrites_append (ws : List Write) (q : Queue) :
    flagCycles (ofWrites ws ++ q) =
      (flagCycles q).modifyHead (ws.filterMap Write.flag? ++ ·) := by
  induction ws with
  | nil => exact (congrFun List.modifyHead_id _).symm
  | cons w ws ih =>
      have hcons : ofWrites (w :: ws) ++ q = .write w :: (ofWrites ws ++ q) := rfl
      rw [hcons, flagCycles_write, ih, List.modifyHead_modifyHead]
      cases hw : w.flag? <;> simp [hw, Function.comp_def]

@[simp] theorem flagCycles_ofFlags_append (u : FlagUpdate) (q : Queue) :
    flagCycles (ofFlags u ++ q) = (flagCycles q).modifyHead (u.flagWrites ++ ·) :=
  flagCycles_ofWrites_append u.writes q

@[simp] theorem flagCycles_ofFlags (u : FlagUpdate) : flagCycles (ofFlags u) = [u.flagWrites] := by
  have h := flagCycles_ofFlags_append u []
  simpa using h

theorem flagCycles_fetch_append (pc : UInt16) (bytes : List UInt8) (q : Queue) :
    flagCycles (fetch pc bytes ++ q) = List.replicate bytes.length [] ++ flagCycles q := by
  induction bytes generalizing pc with
  | nil => rfl
  | cons b bytes ih => simp [fetch, Write.flag?, ih, List.replicate_succ]

/-- Where no write goes to a flag, every cycle is without flags. -/
theorem flagCycles_of_every {q : Queue} (h : q.Every fun w => w.flag? = none) :
    q.flagCycles = List.replicate (q.haltCount + 1) [] := by
  induction q with
  | nil => rfl
  | cons step q ih =>
      cases step with
      | write w =>
          obtain ⟨hw, hq⟩ := every_write.mp h
          rw [flagCycles_write, ih hq, hw, haltCount_write]
          rfl
      | halt =>
          rw [flagCycles_halt, ih h, haltCount_halt, ← List.replicate_succ]
      | suspend s => rw [flagCycles_suspend, ih h, haltCount_suspend]

/-- Cycles one after the other carry out updates of the given flags. In no other
cycle is a flag written. -/
def Updates (fss : List (List Flag)) (q : Queue) : Prop :=
  ∃ us : List FlagUpdate, us.map FlagUpdate.flags = fss ∧ ∃ m n,
    q.flagCycles = List.replicate m [] ++ us.map FlagUpdate.flagWrites ++ List.replicate n []

section

variable {fss : List (List Flag)} {q : Queue}

theorem Updates.halt (h : Updates fss q) : Updates fss (.halt :: q) := by
  obtain ⟨us, hus, m, n, hq⟩ := h
  refine ⟨us, hus, m + 1, n, ?_⟩
  rw [flagCycles_halt, hq, List.replicate_succ, List.cons_append, List.cons_append]

theorem Updates.fetch (h : Updates fss q) (pc : UInt16) (bytes : List UInt8) :
    Updates fss (fetch pc bytes ++ q) := by
  obtain ⟨us, hus, m, n, hq⟩ := h
  refine ⟨us, hus, bytes.length + m, n, ?_⟩
  rw [flagCycles_fetch_append, hq, List.replicate_add, List.append_assoc, List.append_assoc,
    List.append_assoc]

/-- Of every cycle it is known which update it carries out, if any. -/
theorem Updates.cycle (h : Updates fss q) {c : Queue} (hc : c ∈ q.cycles) :
    c.flagWrites = [] ∨ ∃ u : FlagUpdate, c.flagWrites = u.flagWrites ∧ u.flags ∈ fss := by
  obtain ⟨us, rfl, m, n, hq⟩ := h
  have hmem : c.flagWrites ∈ q.flagCycles := List.mem_map_of_mem hc
  rw [hq, List.mem_append, List.mem_append] at hmem
  rcases hmem with (hbefore | hupdate) | hafter
  · exact Or.inl (List.eq_of_mem_replicate hbefore)
  · obtain ⟨u, hu, heq⟩ := List.mem_map.mp hupdate
    exact Or.inr ⟨u, heq.symm, List.mem_map_of_mem hu⟩
  · exact Or.inl (List.eq_of_mem_replicate hafter)

theorem Updates.exists_update (h : Updates fss q) {c : Queue} (hc : c ∈ q.cycles) {f : Flag}
    {v : UInt8} (hmem : .write (.flag f v) ∈ c) :
    ∃ u : FlagUpdate, (f, v) ∈ u.flagWrites ∧ u.flags ∈ fss := by
  have hwrites := mem_flagWrites.mpr hmem
  rcases h.cycle hc with hnone | ⟨u, hu, hflags⟩
  · rw [hnone] at hwrites
    cases hwrites
  · exact ⟨u, hu ▸ hwrites, hflags⟩

theorem updates_nil (h : q.Every fun w => w.flag? = none) : Updates [] q :=
  ⟨[], rfl, 0, q.haltCount + 1, flagCycles_of_every h⟩

theorem updates_one {u : FlagUpdate} {fs : List Flag} (hu : u.flags = fs) (m n : Nat)
    (h : q.flagCycles = List.replicate m [] ++ u.flagWrites :: List.replicate n []) :
    Updates [fs] q := by
  refine ⟨[u], congrArg (fun gs => [gs]) hu, m, n, ?_⟩
  rw [h, List.map_singleton, List.append_assoc, List.singleton_append]

end

end Queue

/-! ## Flags of the arithmetic unit -/

namespace Alu

theorem flags_byteFlags (op : AluOp) (a b : UInt8) :
    (byteFlags op a b).flags = [.z, .n, .h, .c] := by
  cases op <;> rfl

theorem flags_byteFlags_withoutCarry (op : AluOp) (a b : UInt8) :
    (byteFlags op a b).withoutCarry.flags = [.z, .n, .h] := by
  cases op <;> rfl

end Alu

namespace Instruction

open Queue

/-! ## Flags of effects -/

theorem updates_aluEffect (p : Preset) (lead : UInt8) (op : AluOp) (source : Source) :
    Updates [[.z, .n, .h, .c]] (aluEffect p lead op source) := by
  -- a comparison has no write to the accumulator, so the shape depends on `op`
  rcases source with (r | rr) | v
  case place.register =>
    refine updates_one (Alu.flags_byteFlags op p.regs.a (Place.read p (.register r))) 0 0 ?_
    cases op <;> simp [aluEffect, Write.flag?]
  case place.pointer =>
    refine updates_one (Alu.flags_byteFlags op p.regs.a (Place.read p (.pointer rr))) 1 0 ?_
    cases op <;> simp [aluEffect, busRead, restoreBuses, Write.flag?]
  case immediate =>
    refine updates_one (Alu.flags_byteFlags op p.regs.a v) 0 0 ?_
    cases op <;> simp [aluEffect, Write.flag?]

theorem updates_step8Effect (p : Preset) (lead : UInt8) (s : Step) (place : Place) :
    Updates [[.z, .n, .h]] (step8Effect p lead s place) := by
  have hflags := Alu.flags_byteFlags_withoutCarry s.alu (place.read p) 1
  cases place with
  | register r =>
      refine updates_one hflags 0 0 ?_
      simp [step8Effect, Write.flag?]
  | pointer rr =>
      refine updates_one hflags 1 1 ?_
      simp [step8Effect, busRead, restoreBuses, Write.flag?]

def adjustFlags : Adjustment → List Flag
  | .daa => [.z, .h, .c]
  | .cpl => [.n, .h]
  | .scf | .ccf => [.n, .h, .c]

theorem updates_adjustEffect (p : Preset) (a : Adjustment) :
    Updates [adjustFlags a] (adjustEffect p a) := by
  cases a with
  | daa =>
      have hflags : (Alu.daa p.regs.a p.regs.f).2.flags = [.z, .h, .c] := rfl
      refine updates_one hflags 0 0 ?_
      simp [adjustEffect, Write.flag?]
  | cpl =>
      refine updates_one (u := ⟨none, some true, some true, none⟩) rfl 0 0 ?_
      simp [adjustEffect, Write.flag?]
  | scf | ccf => exact updates_one rfl 0 0 (flagCycles_ofFlags _)

theorem updates_addHlEffect (p : Preset) (rr : Reg16) :
    Updates [[.n, .h, .c], [.n, .h, .c]] (addHlEffect p rr) := by
  let low := Alu.byteFlags .add (lowByte (p.regs.get16 .hl)) (lowByte (p.regs.get16 rr))
  let both := Alu.flags .add (p.regs.get16 .hl).toNat (p.regs.get16 rr).toNat Alu.wordModulus
  refine ⟨[low.withoutZero, both.withoutZero], rfl, 0, 0, ?_⟩
  simp [addHlEffect, Write.flag?, low, both]

theorem updates_addSpEffect (p : Preset) (d : Int8) :
    Updates [[.z, .n, .h, .c]] (addSpEffect p d) := by
  refine updates_one
    (u := (Alu.byteFlags .add (lowByte p.regs.sp) d.toUInt8).withZero false) rfl 0 2 ?_
  simp [addSpEffect, Write.flag?, List.replicate_succ]

theorem updates_bitEffect (p : Preset) (bit : UInt8) (place : Place) :
    Updates [[.z, .n, .h]] (bitwiseEffect p .bit bit place) := by
  have hflags : (Alu.bitTest (place.read p) bit).flags = [.z, .n, .h] := rfl
  cases place with
  | register r =>
      refine updates_one hflags 0 0 ?_
      simp [bitwiseEffect, Place.access]
  | pointer rr =>
      refine updates_one hflags 1 0 ?_
      simp [bitwiseEffect, Place.access]

theorem updates_maskEffect (p : Preset) {op : BitOp} (hop : op ≠ .bit) (bit : UInt8)
    (place : Place) : Updates [] (bitwiseEffect p op bit place) := by
  refine updates_nil ?_
  cases op with
  | bit => exact absurd rfl hop
  | res | set => cases place <;> simp [bitwiseEffect, Place.access, Place.store, Write.flag?]

theorem updates_rotateAEffect (p : Preset) (op : RotateOp) :
    Updates [[.z, .n, .h, .c]] (rotateAEffect p op) := by
  refine updates_one
    (u := (Alu.rotate op p.regs.a p.regs.f.c).2.withZero false) rfl 0 0 ?_
  simp [rotateAEffect, Write.flag?]

theorem updates_rotateEffect (p : Preset) (op : RotateOp) (place : Place) :
    Updates [[.z, .n, .h, .c]] (rotateEffect p op place) := by
  have hflags : (Alu.rotate op (place.read p) p.regs.f.c).2.flags = [.z, .n, .h, .c] := rfl
  cases place with
  | register r =>
      refine updates_one hflags 0 0 ?_
      simp [rotateEffect, Place.access, Place.store, Write.flag?]
  | pointer rr =>
      refine updates_one hflags 1 1 ?_
      simp [rotateEffect, Place.access, Place.store, Write.flag?]

theorem updates_hlFromStackEffect (p : Preset) (d : Int8) :
    Updates [[.z, .n, .h, .c]] (hlFromStackEffect p d) := by
  refine updates_one (Alu.flags_byteFlags .add (lowByte p.regs.sp) d.toUInt8) 0 1 ?_
  simp [hlFromStackEffect, Write.flag?]

/-- A load writes no flag unless it adds. -/
theorem updates_loadEffect (p : Preset) {l : Load} (hl : ∀ d, l ≠ .hlFromStack d) :
    Updates [] (loadEffect p l) := by
  refine updates_nil ?_
  cases l
  case fromPointer dst ptr step =>
    cases step <;> simp [loadEffect, stepPointer, Write.flag?]
  case toPointer ptr src step =>
    cases step <;> simp [loadEffect, stepPointer, Write.flag?]
  case hlFromStack d => exact absurd rfl (hl d)
  all_goals simp [loadEffect, popWord, pushWord, Write.flag?]

theorem updates_transferEffect (p : Preset) (length : Nat) (t : Transfer) :
    Updates [] (transferEffect p length t) := by
  refine updates_nil ?_
  cases t <;> simp [transferEffect, jumpTo, popWord, pushWord, Write.setIme, Write.flag?]

theorem updates_controlEffect (op : ControlOp) : Updates [] (controlEffect op) := by
  refine updates_nil ?_
  cases op <;> simp [controlEffect, Write.setIme, Write.flag?]

/-! ## Traces -/

/-- Only the load that adds has a cycle with flags in the table. -/
theorem flagTable_load {l : Load} (hl : ∀ d, l ≠ .hlFromStack d) :
    (Operation.load (some l.dst) (some l.src) l.postLoad).flagTable = [] := by
  -- where the table asks for a pair, the pair has to be named
  cases l
  case pop rr => cases rr <;> rfl
  case pairImmediate rr v => cases rr <;> rfl
  case toPointer rr src step => cases rr <;> rfl
  case pointerImmediate rr v => cases rr <;> rfl
  case hlFromStack d => exact absurd rfl (hl d)
  all_goals rfl

theorem Denotes.flagTable_transfer {e : Encoding} {op : Operation} {t : Transfer}
    (h : Denotes e op (transfer t)) : op.flagTable = [] := by
  cases h <;> rfl

/-- What the effect writes is what the table has for the operation. -/
theorem Denotes.updates_effect {e : Encoding} {op : Operation} {i : Instruction}
    (h : Denotes e op i) (p : Preset) : Updates op.flagTable (i.effect p e) := by
  -- transfers come first: none of their shapes is in the table
  by_cases htransfer : ∃ t, i = transfer t
  · obtain ⟨t, rfl⟩ := htransfer
    rw [h.flagTable_transfer]
    exact updates_transferEffect p e.length t
  have hi : ∀ t, i ≠ transfer t := not_exists.mp htransfer
  cases h with
  | @alu op a lhs hop hlhs s =>
      have htable : (Operation.arithmetic8 op lhs (some s.operand)).flagTable =
          [[.z, .n, .h, .c]] := by
        cases op <;> cases hop <;> rfl
      rw [htable]
      exact updates_aluEffect p e.lead a s
  | @step8 op s hop place rhs =>
      have htable : (Operation.arithmetic8 op (some place.operand) rhs).flagTable =
          [[.z, .n, .h]] := by
        cases op <;> cases hop <;> rfl
      rw [htable]
      exact updates_step8Effect p e.lead s place
  | @adjust op a hop lhs rhs =>
      have htable : (Operation.arithmetic8 op lhs rhs).flagTable = [adjustFlags a] := by
        cases op <;> cases hop <;> rfl
      rw [htable]
      exact updates_adjustEffect p a
  | increment rr | decrement rr =>
      refine updates_nil ?_
      simp [effect, Write.flag?]
  | addHl rr => exact updates_addHlEffect p rr
  | addSp d => exact updates_addSpEffect p d
  | @bitwise op bit payload hpayload hbit place =>
      cases op with
      | bit => exact updates_bitEffect p bit place
      | res =>
          have hne : BitOp.res ≠ .bit := by decide
          exact updates_maskEffect p hne bit place
      | set =>
          have hne : BitOp.set ≠ .bit := by decide
          exact updates_maskEffect p hne bit place
  | load l hl =>
      by_cases hadds : ∃ d, l = .hlFromStack d
      · obtain ⟨d, rfl⟩ := hadds
        exact updates_hlFromStackEffect p d
      · have hnone : ∀ d, l ≠ .hlFromStack d := fun d hd => hadds ⟨d, hd⟩
        rw [flagTable_load hnone]
        exact updates_loadEffect p hnone
  | rotateA hpage hop h => exact updates_rotateAEffect p _
  | rotate op hpayload place => exact updates_rotateEffect p op place
  | control op => exact updates_controlEffect op
  | jump | jumpHl | relative | call | ret | reti | restart => exact absurd rfl (hi _)

/-- Before the effect only complete cycles without flags are added. -/
theorem Denotes.updates_of_mem_traces {e : Encoding} {op : Operation} {i : Instruction}
    (h : Denotes e op i) {t : Trace} (ht : t ∈ i.traces e) : Updates op.flagTable t.queue := by
  have hrest : Updates op.flagTable
      (if t.outcome = some .notTaken then [] else i.effect t.preset.preset e) := by
    by_cases houtcome : t.outcome = some .notTaken
    · obtain ⟨c, hc⟩ := condition?_of_notTaken ht houtcome
      -- only a transfer has a side that is not taken
      cases i with
      | transfer =>
          rw [if_pos houtcome, h.flagTable_transfer]
          exact updates_nil every_nil
      | _ => cases hc
    · rw [if_neg houtcome]
      exact h.updates_effect t.preset.preset
  rw [queue_of_mem_traces ht, ← fetch_eq_reading]
  refine Updates.fetch ?_ 0 _
  rw [delay.eq_def]
  split
  · exact hrest.halt
  · exact hrest

end Instruction

/-! ## Traces of descriptors -/

/-- What a queue does to the flags, for an operation. -/
structure Operation.FlagDiscipline (op : Operation) (q : Queue) : Prop where
  /-- Flags come from the highest down in a cycle, each at most once. -/
  ordered : ∀ c ∈ q.cycles, (c.flagWrites.map Prod.fst).Sublist [.z, .n, .h, .c]
  /-- A flag is cleared or set. -/
  bits : ∀ c ∈ q.cycles, ∀ f v, .write (.flag f v) ∈ c → v = 0 ∨ v = 1
  /-- The cycles that the table has follow each other, and the others write no flag. -/
  table : ∃ m n, q.cycles.map (fun c => c.flagWrites.map Prod.fst) =
    List.replicate m [] ++ op.flagTable ++ List.replicate n []
  /-- A flag that the table does not have is never written. -/
  only : ∀ c ∈ q.cycles, ∀ f v, .write (.flag f v) ∈ c → ∃ fs ∈ op.flagTable, f ∈ fs

theorem Queue.Updates.flagDiscipline {op : Operation} {q : Queue}
    (h : Updates op.flagTable q) : op.FlagDiscipline q := by
  refine ⟨?ordered, ?bits, ?table, ?only⟩
  case ordered =>
    intro c hc
    rcases h.cycle hc with hnone | ⟨u, hu, -⟩
    · rw [hnone]
      exact List.nil_sublist _
    · rw [hu]
      exact u.flags_sublist
  case bits =>
    intro c hc f v hmem
    obtain ⟨u, hu, -⟩ := h.exists_update hc hmem
    exact FlagUpdate.bit_of_mem_flagWrites hu
  case table =>
    obtain ⟨us, hus, m, n, hq⟩ := h
    have hcycles : q.cycles.map (fun c => c.flagWrites.map Prod.fst) =
        q.flagCycles.map (List.map Prod.fst) := by
      rw [flagCycles, List.map_map]
      rfl
    have hupdates : (us.map FlagUpdate.flagWrites).map (List.map Prod.fst) = op.flagTable := by
      rw [← hus, List.map_map]
      rfl
    refine ⟨m, n, ?_⟩
    rw [hcycles, hq, List.map_append, List.map_append, hupdates, List.map_replicate,
      List.map_replicate, List.map_nil]
  case only =>
    intro c hc f v hmem
    obtain ⟨u, hu, hflags⟩ := h.exists_update hc hmem
    exact ⟨u.flags, hflags, List.mem_map_of_mem hu⟩

namespace Descriptor

/-- **Flag discipline.** Every trace of an accepted descriptor writes in every
cycle the flags that the table has for it, in order and with a bit each, and no
others. -/
theorem flagDiscipline_of_assemble {d : Descriptor} {ts : List Trace} (h : d.assemble = .ok ts) :
    ∀ t ∈ ts, d.operation.FlagDiscipline t.queue := by
  obtain ⟨e, i, -, hdenotes, -, -, rfl⟩ := assemble_eq_ok_iff_denotes.mp h
  intro t ht
  exact (hdenotes.updates_of_mem_traces ht).flagDiscipline

/-- `ADD HL,SP`, which reports to the flags twice. -/
def pairSumSample : Descriptor :=
  ⟨0x39, 1, 2, .arithmetic16 .add (some (.reg16 .hl)) (some (.reg16 .sp))⟩

theorem assemble_pairSumSample :
    pairSumSample.assemble = .ok ((Instruction.addHl .sp).traces ⟨0x39, []⟩) :=
  assemble_of_denotes rfl (.addHl .sp) rfl rfl

theorem flagDiscipline_of_assemble_pairSum :
    ∃ t, pairSumSample.assemble = .ok [t] ∧ pairSumSample.operation.FlagDiscipline t.queue ∧
      t.queue.cycles.map (fun c => c.flagWrites.map Prod.fst) =
        [[], [.n, .h, .c], [.n, .h, .c]] := by
  have hall := flagDiscipline_of_assemble assemble_pairSumSample
  exact ⟨_, assemble_pairSumSample, hall _ List.mem_cons_self, by decide⟩

end Descriptor

end GoldenTrace
