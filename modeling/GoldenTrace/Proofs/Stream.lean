import GoldenTrace.Proofs.Agreement
import GoldenTrace.Proofs.Duration

/-!
# The instruction stream

Every trace begins with the bytes that its instruction reads, in the order of
the machine code and one cycle each. How many these are stands in a table here,
by the shapes of operands and apart from any trace. Behind them the program
counter and the instruction register are written only where control is
transferred, and there once.
-/

namespace GoldenTrace

/-! ## The table -/

namespace Operation

/-- The immediate of an accumulator operation, by its second operand. -/
def aluImmediate : Option Operand → List UInt8
  | some ⟨.imm8 v, false⟩ => [v]
  | _ => []

/-- The immediate of a load, by its destination, its source and the
displacement that comes with it. -/
def loadImmediate : Operand → Operand → PostLoad → List UInt8
  | ⟨.register8 _, false⟩, ⟨.imm8 v, false⟩, _ => [v]
  | ⟨.register16 _, true⟩, ⟨.imm8 v, false⟩, _ => [v]
  | ⟨.imm8 a, true⟩, ⟨.register8 _, false⟩, _ => [a]
  | ⟨.register8 _, false⟩, ⟨.imm8 a, true⟩, _ => [a]
  | ⟨.register16 .hl, false⟩, ⟨.register16 .sp, false⟩, .addSigned d => [d.toUInt8]
  | ⟨.register16 _, false⟩, ⟨.imm16 v, false⟩, _ => littleEndian v
  | ⟨.imm16 a, true⟩, ⟨.register16 .sp, false⟩, _ => littleEndian a
  | ⟨.imm16 a, true⟩, ⟨.register8 _, false⟩, _ => littleEndian a
  | ⟨.register8 _, false⟩, ⟨.imm16 a, true⟩, _ => littleEndian a
  | _, _, _ => []

/-- The immediate of an operation in the order of the stream. The target of a
restart is none. -/
def immediate : Operation → List UInt8
  | arithmetic8 op _ rhs =>
    match op with
    | .inc | .dec | .daa | .cpl | .scf | .ccf => []
    | _ => aluImmediate rhs
  | arithmetic16 .add (some ⟨.register16 .sp, false⟩) (some ⟨.signedImm8 d, false⟩) =>
    [d.toUInt8]
  | load (some dst) (some src) post => loadImmediate dst src post
  | jump .jp _ (some ⟨.imm16 a, false⟩) => littleEndian a
  | jump .jr _ (some ⟨.signedImm8 d, false⟩) => [d.toUInt8]
  | jump .call _ (some ⟨.imm16 a, false⟩) => littleEndian a
  | _ => []

/-- How many bytes of the stream an operation reads; rotations differ by the
page of their opcode. -/
def streamLength (onPage : Bool) : Operation → Nat
  | bitwise .. => 2
  | rotate .. => if onPage then 2 else 1
  | op => 1 + op.immediate.length

end Operation

namespace Instruction

theorem loadImmediate_eq {l : Load} (h : l.Legal) :
    Operation.loadImmediate l.dst l.src l.postLoad = l.immediates := by
  cases l
  case pop rr => cases rr <;> rfl
  case push rr => cases rr <;> rfl
  case pairImmediate rr v => cases rr <;> rfl
  all_goals rfl

theorem Denotes.immediate_eq {e : Encoding} {op : Operation} {i : Instruction}
    (h : Denotes e op i) : op.immediate = i.immediates := by
  cases h with
  | @alu op a lhs hop hlhs s =>
      rcases s with (r | rr) | v <;> cases op <;> cases hop <;> rfl
  | @step8 op s hop p rhs => cases op <;> cases hop <;> rfl
  | @adjust op a hop lhs rhs => cases op <;> cases hop <;> rfl
  | load l h => exact loadImmediate_eq h
  | _ => rfl

/-- **The table.** It has the length of the stream of every operation that
denotes an instruction. -/
theorem Denotes.streamLength_eq {e : Encoding} {op : Operation} {i : Instruction}
    (h : Denotes e op i) : op.streamLength e.payload?.isSome = i.streamLength := by
  have himmediate := h.immediate_eq
  cases h with
  | bitwise hpayload hbit p => rfl
  | rotate op hpayload p => rw [hpayload]; rfl
  | rotateA hpage hop h => rw [hpage]; rfl
  | _ => exact congrArg (fun bs : List UInt8 => 1 + bs.length) himmediate

end Instruction

/-! ## Writes of queues -/

/-- An update writes the flags it has a state for, and nothing else. -/
theorem FlagUpdate.mem_writes {u : FlagUpdate} {w : Write} :
    w ∈ u.writes ↔ ∃ f b, u.get f = some b ∧ w = .setFlag f b := by
  have horder : ∀ f, f ∈ Flag.order := by
    intro f
    cases f <;> decide
  simp only [writes, List.mem_filterMap, Option.map_eq_some_iff, horder, true_and]
  constructor
  · rintro ⟨f, b, hget, rfl⟩
    exact ⟨f, b, hget, rfl⟩
  · rintro ⟨f, b, hget, rfl⟩
    exact ⟨f, b, hget, rfl⟩

namespace Queue

@[simp] theorem writes_ofWrites (ws : List Write) : writes (ofWrites ws) = ws := by
  induction ws with
  | nil => rfl
  | cons w ws ih => exact congrArg (w :: ·) ih

/-- Every write of the queue has the property. -/
def Every (P : Write → Prop) (q : Queue) : Prop :=
  ∀ w ∈ q.writes, P w

section

variable {P : Write → Prop}

@[simp] theorem every_nil : Every P [] := by
  simp [Every]

@[simp] theorem every_write {w : Write} {q : Queue} :
    Every P (.write w :: q) ↔ P w ∧ Every P q := by
  simp [Every]

@[simp] theorem every_halt {q : Queue} : Every P (.halt :: q) ↔ Every P q :=
  .rfl

@[simp] theorem every_suspend {s : Suspend} {q : Queue} :
    Every P (.suspend s :: q) ↔ Every P q :=
  .rfl

@[simp] theorem every_append {q q' : Queue} : Every P (q ++ q') ↔ Every P q ∧ Every P q' := by
  simp [Every, or_imp, forall_and]

@[simp] theorem every_ofWrites {ws : List Write} : Every P (ofWrites ws) ↔ ∀ w ∈ ws, P w := by
  simp [Every]

@[simp] theorem every_ofFlags {u : FlagUpdate} :
    Every P (ofFlags u) ↔ ∀ f b, u.get f = some b → P (.setFlag f b) := by
  rw [ofFlags, every_ofWrites]
  constructor
  · intro h f b hget
    exact h _ (FlagUpdate.mem_writes.mpr ⟨f, b, hget, rfl⟩)
  · intro h w hw
    obtain ⟨f, b, hget, rfl⟩ := FlagUpdate.mem_writes.mp hw
    exact h f b hget

end

/-- Neither the program counter nor the instruction register is written. -/
def Stays (q : Queue) : Prop :=
  q.Every fun w => w.target ≠ .pc ∧ w.target ≠ .ir

/-- The program counter and the instruction register are written once, next to
each other: the one with a target, the other with the byte found there. -/
def Lands (p : Preset) (q : Queue) : Prop :=
  ∃ before target after,
    q = before ++ .write (.pc target) :: .write (.ir (p.read8 target)) :: after ∧
      Stays before ∧ Stays after

/-- The reading of bytes from the start of memory, a cycle each: the program
counter moves behind the byte and the byte is latched. -/
def reading (bytes : List UInt8) : Queue :=
  bytes.zipIdx.flatMap fun (b, k) => [.write (.pc (UInt16.ofNat (k + 1))), .write (.ir b), .halt]

theorem fetch_eq_flatMap (k : Nat) (bytes : List UInt8) :
    fetch (UInt16.ofNat k) bytes = (bytes.zipIdx k).flatMap fun (b, k) =>
      [.write (.pc (UInt16.ofNat (k + 1))), .write (.ir b), .halt] := by
  induction bytes generalizing k with
  | nil => rfl
  | cons b bytes ih =>
      have hnext : UInt16.ofNat k + 1 = UInt16.ofNat (k + 1) := UInt16.ofNat_add k 1 |>.symm
      rw [fetch, hnext, ih, List.zipIdx_cons, List.flatMap_cons]
      rfl

theorem fetch_eq_reading (bytes : List UInt8) : fetch 0 bytes = reading bytes :=
  fetch_eq_flatMap 0 bytes

theorem reading_concat (bytes : List UInt8) (b : UInt8) :
    reading (bytes ++ [b]) =
      reading bytes ++ [.write (.pc (UInt16.ofNat (bytes.length + 1))), .write (.ir b), .halt] := by
  simp [reading, List.zipIdx_append]

/-- Every byte takes three steps. -/
theorem length_reading (bytes : List UInt8) : (reading bytes).length = 3 * bytes.length := by
  rw [reading, List.length_flatMap]
  simp
  omega

/-- The reading of bytes ends where the rest begins. -/
theorem take_drop_reading {n : Nat} {bytes : List UInt8} {q rest : Queue} (h : n ≤ bytes.length)
    (hq : q = reading (bytes.take n) ++ rest) :
    q.take (3 * n) = reading (bytes.take n) ∧ q.drop (3 * n) = rest := by
  have hlength : (reading (bytes.take n)).length = 3 * n := by
    rw [length_reading, List.length_take, Nat.min_eq_left h]
  rw [hq]
  exact ⟨List.take_left' hlength, List.drop_left' hlength⟩

end Queue

/-! ## Effects leave the stream alone -/

namespace Instruction

open Queue

theorem stays_aluEffect (p : Preset) (lead : UInt8) (op : AluOp) (source : Source) :
    Stays (aluEffect p lead op source) := by
  -- a comparison has no write to the accumulator, so the shape depends on `op`
  rcases source with (r | rr) | v <;> cases op <;>
    simp [Stays, aluEffect, busRead, restoreBuses, Write.target, Write.setFlag]

theorem stays_step8Effect (p : Preset) (lead : UInt8) (s : Step) (place : Place) :
    Stays (step8Effect p lead s place) := by
  cases place <;>
    simp [Stays, step8Effect, busRead, restoreBuses, Write.target, Write.setFlag]

theorem stays_adjustEffect (p : Preset) (a : Adjustment) : Stays (adjustEffect p a) := by
  cases a <;> simp [Stays, adjustEffect, Write.target, Write.setFlag]

theorem stays_bitwiseEffect (p : Preset) (op : BitOp) (bit : UInt8) (place : Place) :
    Stays (bitwiseEffect p op bit place) := by
  cases op <;> cases place <;>
    simp [Stays, bitwiseEffect, Place.access, Place.store, Write.target, Write.setFlag]

theorem stays_rotateEffect (p : Preset) (op : RotateOp) (place : Place) :
    Stays (rotateEffect p op place) := by
  cases place <;>
    simp [Stays, rotateEffect, Place.access, Place.store, Write.target, Write.setFlag]

theorem stays_pushWord (sp v : UInt16) : Stays (pushWord sp v) := by
  simp [Stays, pushWord, Write.target]

theorem stays_popWord (sp : UInt16) (more : List Write)
    (hmore : ∀ w ∈ more, w.target ≠ .pc ∧ w.target ≠ .ir) : Stays (popWord sp more) := by
  simpa [Stays, popWord, Write.target] using hmore

theorem stays_loadEffect (p : Preset) (l : Load) : Stays (loadEffect p l) := by
  cases l
  case fromPointer dst ptr step =>
    cases step <;> simp [Stays, loadEffect, stepPointer, Write.target]
  case toPointer ptr src step =>
    cases step <;> simp [Stays, loadEffect, stepPointer, Write.target]
  case push src => exact stays_pushWord _ _
  all_goals simp [Stays, loadEffect, popWord, hlFromStackEffect, Write.target, Write.setFlag]

/-- No effect but a transfer of control touches the stream. -/
theorem stays_effect (p : Preset) (e : Encoding) {i : Instruction}
    (hi : ∀ t, i ≠ transfer t) : Stays (i.effect p e) := by
  cases i with
  | alu op source => exact stays_aluEffect p e.lead op source
  | step8 s place => exact stays_step8Effect p e.lead s place
  | adjust a => exact stays_adjustEffect p a
  | step16 s rr => simp [Stays, effect, Write.target]
  | addHl rr => simp [Stays, effect, addHlEffect, Write.target, Write.setFlag]
  | addSp d => simp [Stays, effect, addSpEffect, Write.target, Write.setFlag]
  | bitwise op bit place => exact stays_bitwiseEffect p op bit place
  | load l => exact stays_loadEffect p l
  | transfer t => exact absurd rfl (hi t)
  | rotateA op => simp [Stays, effect, rotateAEffect, Write.target, Write.setFlag]
  | rotate op place => exact stays_rotateEffect p op place
  | control op => cases op <;> simp [Stays, effect, controlEffect, Write.target, Write.setIme]

/-- A transfer that is taken reaches its target once, before or behind what it
does to the stack. -/
theorem lands_transferEffect (p : Preset) (length : Nat) (t : Transfer) :
    Lands p (transferEffect p length t) := by
  have hstays : Stays [.halt] := by simp [Stays]
  cases t with
  | jump c a => exact ⟨[], a, [.halt], rfl, every_nil, hstays⟩
  | jumpHl => exact ⟨[], p.regs.get16 .hl, [], rfl, every_nil, every_nil⟩
  | relative c d => exact ⟨[], displace (nextPc p length) d, [.halt], rfl, every_nil, hstays⟩
  | call c a =>
      exact ⟨pushWord p.regs.sp (nextPc p length), a, [], rfl, stays_pushWord _ _, every_nil⟩
  | ret c =>
      exact ⟨popWord p.regs.sp [], p.read16 p.regs.sp, [.halt], rfl,
        stays_popWord _ _ (by simp), hstays⟩
  | reti =>
      exact ⟨popWord p.regs.sp [.setIme true], p.read16 p.regs.sp, [.halt], rfl,
        stays_popWord _ _ (by simp [Write.setIme, Write.target]), hstays⟩
  | restart v =>
      exact ⟨pushWord p.regs.sp (nextPc p length), v, [], rfl, stays_pushWord _ _, every_nil⟩

/-! ## Traces -/

theorem Denotes.exists_transfer_of_jump {e : Encoding} {op : Operation} {i : Instruction}
    (h : Denotes e op i) (hop : op.category = .jump) : ∃ t, i = transfer t := by
  cases h
  case jump | jumpHl | relative | call | ret | reti | restart => exact ⟨_, rfl⟩
  all_goals cases hop

theorem Denotes.ne_transfer {e : Encoding} {op : Operation} {i : Instruction}
    (h : Denotes e op i) (hop : op.category ≠ .jump) (t : Transfer) : i ≠ transfer t := by
  rintro rfl
  cases h <;> exact hop rfl

/-- A delay writes nothing. -/
theorem writes_delay (i : Instruction) : writes i.delay = [] := by
  rw [delay.eq_def]
  split <;> rfl

theorem every_delay {P : Write → Prop} (i : Instruction) : Every P i.delay := by
  intro w hw
  rw [writes_delay] at hw
  cases hw

/-- Every trace starts at the beginning of memory. -/
theorem pc_preset (p : PresetName) : p.preset.regs.pc = 0 := by
  cases p <;> rfl

theorem opening_eq (p : PresetName) (e : Encoding) (i : Instruction) :
    i.opening p.preset e = reading (e.bytes.take i.streamLength) ++ i.delay := by
  rw [opening, pc_preset, fetch_eq_reading]

/-- Every instruction reads its opcode. -/
theorem take_bytes_ne_nil (e : Encoding) (i : Instruction) :
    e.bytes.take i.streamLength ≠ [] := by
  rw [ne_eq, List.take_eq_nil_iff]
  rintro (hzero | hnil)
  · exact Nat.ne_of_gt i.streamLength_pos hzero
  · cases hnil

/-- An instruction without a condition has one trace. -/
theorem traces_of_no_condition {i : Instruction} {e : Encoding} (hcondition : i.condition? = none)
    (hdelay : i.delay = []) :
    i.traces e = [⟨i.preset, none,
      reading (e.bytes.take i.streamLength) ++ i.effect i.preset.preset e⟩] := by
  rw [traces, hcondition]
  simp only [execution, opening_eq, hdelay, List.append_nil]

/-- Behind the stream stands what a condition takes, and unless the branch is not
taken the effect. -/
theorem queue_of_mem_traces {e : Encoding} {i : Instruction} {t : Trace} (ht : t ∈ i.traces e) :
    t.queue = reading (e.bytes.take i.streamLength) ++
      (i.delay ++ if t.outcome = some .notTaken then [] else i.effect t.preset.preset e) := by
  rw [traces] at ht
  split at ht
  case h_1 =>
    rw [List.mem_singleton.mp ht]
    simp [execution, opening_eq]
  case h_2 c hc =>
    rcases List.mem_cons.mp ht with rfl | ht
    · simp [execution, opening_eq]
    · rw [List.mem_singleton.mp ht]
      simp [opening_eq]

end Instruction

theorem Queue.Lands.append {p : Preset} {q q' : Queue} (hq : Stays q) (h : Lands p q') :
    Lands p (q ++ q') := by
  obtain ⟨before, target, after, rfl, hbefore, hafter⟩ := h
  refine ⟨q ++ before, target, after, by simp, ?_, hafter⟩
  exact every_append.mpr ⟨hq, hbefore⟩

/-! ## Streams of descriptors -/

namespace Descriptor

/-- How many bytes the traces of a descriptor read. -/
def streamLength (d : Descriptor) : Nat :=
  d.operation.streamLength d.effectiveOpcode.onPage

/-- A stream, an instruction and its cycles make an accepted descriptor. -/
theorem assemble_of_denotes {d : Descriptor} {e : Encoding} {i : Instruction}
    (he : d.encoding = .ok e) (hdenotes : Instruction.Denotes e d.operation i)
    (hfits : i.fits e = true) (hcycles : i.machineCycles = d.duration.toNat) :
    d.assemble = .ok (i.traces e) :=
  assemble_eq_ok_iff_denotes.mpr ⟨e, i, he, hdenotes, hfits, hcycles, rfl⟩

/-- What is accepted has all the bytes that its instruction reads. -/
theorem exists_stream_of_assemble {d : Descriptor} {ts : List Trace} (h : d.assemble = .ok ts) :
    ∃ e i, d.encoding = .ok e ∧ Instruction.Denotes e d.operation i ∧ i.fits e = true ∧
      d.streamLength = i.streamLength ∧ i.streamLength ≤ e.bytes.length ∧ ts = i.traces e := by
  obtain ⟨e, i, he, hdenotes, hfits, -, rfl⟩ := assemble_eq_ok_iff_denotes.mp h
  have hstream : d.streamLength = i.streamLength := by
    rw [streamLength, ← payload?_isSome_of_encoding he, hdenotes.streamLength_eq]
  exact ⟨e, i, he, hdenotes, hfits, hstream, hdenotes.streamLength_le hfits, rfl⟩

/-- What traces do with the bytes `b` of their descriptor. -/
structure Streams (d : Descriptor) (b : List UInt8) (ts : List Trace) : Prop where
  /-- There are as many bytes as are read. -/
  enough : d.streamLength ≤ b.length
  /-- An immediate makes up the machine code together with the byte of the opcode. -/
  immediate : d.operation.immediate ≠ [] →
    d.streamLength = d.byteLength.toNat ∧ ∃ opcode, b = opcode :: d.operation.immediate ∧
      d.machineCode.toNat = ofBigEndian (opcode :: d.operation.immediate)
  /-- Every trace begins with the bytes that are read. -/
  reads : ∀ t ∈ ts, t.queue.take (3 * d.streamLength) = Queue.reading (b.take d.streamLength)
  /-- Behind them, a jump goes to its target once. -/
  jumps : ∀ t ∈ ts, d.operation.category = .jump → t.outcome ≠ some .notTaken →
    Queue.Lands t.preset.preset (t.queue.drop (3 * d.streamLength))
  /-- Nothing else writes the program counter or the instruction register. -/
  stays : ∀ t ∈ ts, d.operation.category ≠ .jump ∨ t.outcome = some .notTaken →
    Queue.Stays (t.queue.drop (3 * d.streamLength))

/-- **The instruction stream is read faithfully.** Every trace of an accepted
descriptor reads its bytes one by one, and after them the program counter and the
instruction register change only where control is transferred. -/
theorem streams_of_assemble {d : Descriptor} {ts : List Trace} (h : d.assemble = .ok ts) :
    ∃ b, d.bytes? = some b ∧ d.Streams b ts := by
  obtain ⟨e, i, he, hdenotes, hfits, hstream, hle, rfl⟩ := exists_stream_of_assemble h
  obtain ⟨hbytes, hlength, hcode⟩ := bytes_of_encoding he
  have hsplit : ∀ t ∈ i.traces e,
      t.queue.take (3 * d.streamLength) = Queue.reading (e.bytes.take d.streamLength) ∧
        t.queue.drop (3 * d.streamLength) = i.delay ++
          if t.outcome = some .notTaken then [] else i.effect t.preset.preset e := by
    intro t ht
    rw [hstream]
    exact Queue.take_drop_reading hle (Instruction.queue_of_mem_traces ht)
  rw [← hstream] at hle
  refine ⟨e.bytes, hbytes, hle, ?immediate, ?reads, ?jumps, ?stays⟩
  case immediate =>
    intro hne
    rw [hdenotes.immediate_eq] at hne ⊢
    have htail : e.tail = i.immediates := (Instruction.fits_iff.mp hfits).resolve_left hne
    have hall : e.bytes = e.lead :: i.immediates := htail ▸ rfl
    have hone : i.streamLength = 1 + i.immediates.length := by
      cases i with
      | bitwise | rotate => exact absurd rfl hne
      | _ => rfl
    refine ⟨?_, e.lead, hall, hall ▸ hcode.symm⟩
    rw [hstream, hone, ← hlength, hall, List.length_cons, Nat.add_comm]
  case reads =>
    intro t ht
    exact (hsplit t ht).1
  case jumps =>
    intro t ht hop houtcome
    obtain ⟨transfer, rfl⟩ := hdenotes.exists_transfer_of_jump hop
    rw [(hsplit t ht).2, if_neg houtcome]
    exact .append (Instruction.every_delay _) (Instruction.lands_transferEffect _ _ transfer)
  case stays =>
    intro t ht hstill
    rw [(hsplit t ht).2]
    refine Queue.every_append.mpr ⟨Instruction.every_delay i, ?_⟩
    by_cases houtcome : t.outcome = some .notTaken
    · rw [if_pos houtcome]
      exact Queue.every_nil
    · rw [if_neg houtcome]
      have hop := hstill.resolve_right houtcome
      exact Instruction.stays_effect _ _ (hdenotes.ne_transfer hop)

/-- `JR Z` over two bytes back, which is to the jump itself. -/
def relativeSample : Descriptor :=
  ⟨0x28FE, 2, 3, .jump .jr (some .zero) (some ⟨.signedImm8 (-2), false⟩)⟩

theorem assemble_relativeSample :
    relativeSample.assemble =
      .ok ((Instruction.transfer (.relative (some .zero) (-2))).traces ⟨0x28, [0xFE]⟩) :=
  assemble_of_denotes rfl (.relative _ _) rfl rfl

/-- The relative jump reads its opcode and its displacement on both sides. -/
theorem streams_of_assemble_relative :
    ∃ ts, relativeSample.assemble = .ok ts ∧ relativeSample.bytes? = some [0x28, 0xFE] ∧
      relativeSample.Streams [0x28, 0xFE] ts := by
  obtain ⟨b, hb, hstreams⟩ := streams_of_assemble assemble_relativeSample
  obtain rfl : b = [0x28, 0xFE] := Option.some.inj (hb.symm.trans (by decide))
  exact ⟨_, assemble_relativeSample, hb, hstreams⟩

end Descriptor

end GoldenTrace
