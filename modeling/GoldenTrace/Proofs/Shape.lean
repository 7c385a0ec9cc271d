import GoldenTrace.Proofs.FlagWrites

/-!
# Shapes

The shape of an operation is what it is without its constants, and the shape of a trace is
what it writes to, step by step, without values and addresses. The effect of an instruction
has the shape that it would have with every constant zero, and what is read of the stream has
the shape of its length. So instructions of one shape have traces of one shape.
-/

namespace GoldenTrace

/-! ## Operations without constants -/

namespace Operand

/-- A kind of operand with its constant set to zero. -/
def Kind.shape : Kind → Kind
  | register8 r => register8 r
  | register16 rr => register16 rr
  | imm8 _ => imm8 0
  | imm16 _ => imm16 0
  | signedImm8 _ => signedImm8 0

def shape (o : Operand) : Operand :=
  ⟨o.kind.shape, o.pointer⟩

end Operand

def PostLoad.shape : PostLoad → PostLoad
  | none => none
  | increment => increment
  | decrement => decrement
  | addSigned _ => addSigned 0

/-- An operation with the constants of its operands set to zero. The bit of a bitwise
operation is none of them. -/
def Operation.shape : Operation → Operation
  | arithmetic8 op lhs rhs => arithmetic8 op (lhs.map Operand.shape) (rhs.map Operand.shape)
  | arithmetic16 op lhs rhs => arithmetic16 op (lhs.map Operand.shape) (rhs.map Operand.shape)
  | bitwise op bit operand => bitwise op bit (operand.map Operand.shape)
  | load dst src post => load (dst.map Operand.shape) (src.map Operand.shape) post.shape
  | jump kind c target => jump kind c (target.map Operand.shape)
  | rotate op operand => rotate op (operand.map Operand.shape)
  | control op => control op

/-! ## Traces without values -/

/-- A target, and of memory no address. -/
def Target.shape : Target → Target
  | memory _ => memory 0
  | t => t

/-- What is left of a step without values and addresses. -/
inductive Command.Shape where
  | write (target : Target)
  | halt
  | suspend (s : Suspend)
  deriving DecidableEq

def Command.shape : Command → Command.Shape
  | write w => .write w.target.shape
  | halt => .halt
  | suspend s => .suspend s

def Queue.shape (q : Queue) : List Command.Shape :=
  q.map Command.shape

/-- Traces from one state and with one outcome, whose steps go to the same targets. -/
structure Trace.Alike (t t' : Trace) : Prop where
  preset : t.preset = t'.preset
  outcome : t.outcome = t'.outcome
  shape : t.queue.shape = t'.queue.shape

namespace Queue

@[simp] theorem shape_nil : shape [] = [] := rfl

@[simp] theorem shape_cons (step : Command) (q : Queue) :
    shape (step :: q) = step.shape :: q.shape := rfl

@[simp] theorem shape_append (q q' : Queue) : shape (q ++ q') = q.shape ++ q'.shape :=
  List.map_append

/-- An update has the shape of the flags that it writes. -/
@[simp] theorem shape_ofFlags (u : FlagUpdate) :
    (ofFlags u).shape = u.flags.map fun f => .write (.flag f) := by
  obtain ⟨z, n, h, c⟩ := u
  cases z <;> cases n <;> cases h <;> cases c <;> rfl

/-- What is read of the stream has the shape of its length. -/
theorem shape_fetch (pc : UInt16) (bytes : List UInt8) :
    (fetch pc bytes).shape =
      (List.replicate bytes.length [.write .pc, .write .ir, .halt]).flatten := by
  induction bytes generalizing pc with
  | nil => rfl
  | cons b bytes ih =>
      rw [fetch, shape_cons, shape_cons, shape_cons, ih, List.length_cons, List.replicate_succ,
        List.flatten_cons]
      rfl

end Queue

/-! ## Instructions without constants -/

def Source.shape : Source → Source
  | place p => place p
  | immediate _ => immediate 0

def Load.shape : Load → Load
  | pairImmediate dst _ => pairImmediate dst 0
  | immediate dst _ => immediate dst 0
  | pointerImmediate ptr _ => pointerImmediate ptr 0
  | storeStackPointer _ => storeStackPointer 0
  | highStore _ src => highStore 0 src
  | highLoad dst _ => highLoad dst 0
  | absoluteStore _ src => absoluteStore 0 src
  | absoluteLoad dst _ => absoluteLoad dst 0
  | hlFromStack _ => hlFromStack 0
  | l => l

/-- The vector of a restart is no constant of its operands. -/
def Transfer.shape : Transfer → Transfer
  | jump c _ => jump c 0
  | relative c _ => relative c 0
  | call c _ => call c 0
  | t => t

theorem Source.shape_shape (s : Source) : s.shape.shape = s.shape := by
  cases s <;> rfl

theorem Load.shape_shape (l : Load) : l.shape.shape = l.shape := by
  cases l <;> rfl

namespace Instruction

def shape : Instruction → Instruction
  | alu op source => alu op source.shape
  | addSp _ => addSp 0
  | load l => load l.shape
  | transfer t => transfer t.shape
  | i => i

theorem condition?_shape (i : Instruction) : i.shape.condition? = i.condition? := by
  cases i with
  | transfer t => cases t <;> rfl
  | _ => rfl

theorem preset_shape (i : Instruction) : i.shape.preset = i.preset := by
  cases i with
  | load l => cases l <;> rfl
  | _ => rfl

theorem delay_shape (i : Instruction) : i.shape.delay = i.delay := by
  cases i with
  | transfer t => cases t <;> rfl
  | _ => rfl

theorem streamLength_shape (i : Instruction) : i.shape.streamLength = i.streamLength := by
  cases i with
  | alu op source => cases source <;> rfl
  | load l => cases l <;> rfl
  | transfer t => cases t <;> rfl
  | _ => rfl

/-! ## Effects -/

section

open Queue

theorem shape_aluEffect (p : Preset) (lead lead' : UInt8) (op : AluOp) (source : Source) :
    (aluEffect p lead op source).shape = (aluEffect p lead' op source.shape).shape := by
  -- a comparison has no write to the accumulator, so the shape depends on `op`
  rcases source with (r | rr) | v <;> cases op <;>
    simp [aluEffect, busRead, restoreBuses, Source.shape, Alu.flags_byteFlags, Command.shape,
      Write.target]

theorem shape_step8Effect (p : Preset) (lead lead' : UInt8) (s : Step) (place : Place) :
    (step8Effect p lead s place).shape = (step8Effect p lead' s place).shape := by
  cases place <;> simp [step8Effect, busRead, restoreBuses, Command.shape, Write.target]

theorem shape_loadEffect (p : Preset) (l : Load) :
    (loadEffect p l).shape = (loadEffect p l.shape).shape := by
  cases l
  case hlFromStack d =>
    simp [loadEffect, Load.shape, hlFromStackEffect, Alu.flags_byteFlags, Command.shape,
      Write.target]
  all_goals simp [loadEffect, Load.shape, Command.shape, Write.target, Target.shape]

theorem shape_transferEffect (p : Preset) (length length' : Nat) (t : Transfer) :
    (transferEffect p length t).shape = (transferEffect p length' t.shape).shape := by
  cases t <;> rfl

/-- What an effect writes to depends neither on constants nor on bytes. -/
theorem shape_effect (p : Preset) (e e' : Encoding) (i : Instruction) :
    (i.effect p e).shape = (i.shape.effect p e').shape := by
  cases i with
  | alu op source => exact shape_aluEffect p e.lead e'.lead op source
  | step8 s place => exact shape_step8Effect p e.lead e'.lead s place
  | addSp d => rfl
  | load l => exact shape_loadEffect p l
  | transfer t => exact shape_transferEffect p e.length e'.length t
  | _ => rfl

end

/-! ## Traces -/

section

variable {e e' : Encoding} {i j : Instruction}

/-- What does not look at constants is a matter of the shape. -/
theorem eq_of_shape {α : Type} {f : Instruction → α} (hf : ∀ i, f i.shape = f i)
    (h : i.shape = j.shape) : f i = f j := by
  rw [← hf i, h, hf]

theorem shape_opening (hi : i.streamLength ≤ e.bytes.length) (p : Preset) :
    (i.opening p e).shape =
      (List.replicate i.streamLength [.write .pc, .write .ir, .halt]).flatten ++ i.delay.shape := by
  rw [opening, Queue.shape_append, Queue.shape_fetch, List.length_take, Nat.min_eq_left hi]

theorem shape_opening_eq (h : i.shape = j.shape) (hi : i.streamLength ≤ e.bytes.length)
    (hj : j.streamLength ≤ e'.bytes.length) (p : Preset) :
    (i.opening p e).shape = (j.opening p e').shape := by
  rw [shape_opening hi, shape_opening hj, eq_of_shape streamLength_shape h,
    eq_of_shape delay_shape h]

theorem shape_execution_eq (h : i.shape = j.shape) (hi : i.streamLength ≤ e.bytes.length)
    (hj : j.streamLength ≤ e'.bytes.length) (p : Preset) :
    (i.execution p e).shape = (j.execution p e').shape := by
  rw [execution, execution, Queue.shape_append, Queue.shape_append, shape_opening_eq h hi hj,
    shape_effect p e e i, h, ← shape_effect p e' e j]

/-- Instructions of one shape have traces of one shape. -/
theorem alike_traces (h : i.shape = j.shape) (hi : i.streamLength ≤ e.bytes.length)
    (hj : j.streamLength ≤ e'.bytes.length) :
    List.Forall₂ Trace.Alike (i.traces e) (j.traces e') := by
  have hpreset := eq_of_shape preset_shape h
  unfold traces
  rw [← eq_of_shape condition?_shape h]
  cases i.condition? with
  | none =>
      refine .cons ⟨hpreset, rfl, ?_⟩ .nil
      rw [hpreset]
      exact shape_execution_eq h hi hj _
  | some c =>
      refine .cons ⟨rfl, rfl, ?_⟩ (.cons ⟨rfl, rfl, ?_⟩ .nil)
      · exact shape_execution_eq h hi hj _
      · exact shape_opening_eq h hi hj _

end

end Instruction

end GoldenTrace
