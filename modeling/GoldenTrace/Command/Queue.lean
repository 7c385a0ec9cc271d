import GoldenTrace.Command.Write
import GoldenTrace.Segments

/-!
# Command queues

A queue is the trace of one instruction: writes in the order they happen, with
an end mark after every machine cycle. A queue with `n` end marks spans
`n + 1` cycles, the last of which is shared with the next instruction's fetch.
-/

namespace GoldenTrace

inductive Suspend where
  | halt
  | stop
  deriving DecidableEq

inductive Command where
  | write (w : Write)
  /-- The end of a machine cycle. -/
  | halt
  /-- A request to suspend the processor, which ends no cycle. -/
  | suspend (s : Suspend)
  deriving DecidableEq

def Command.isHalt : Command → Bool
  | halt => true
  | _ => false

def Command.write? : Command → Option Write
  | write w => some w
  | _ => none

abbrev Queue := List Command

namespace Queue

/-- How many machine cycles a queue ends. -/
def haltCount (q : Queue) : Nat :=
  q.countP Command.isHalt

/-- The steps of each machine cycle, without the end marks. -/
def cycles (q : Queue) : List Queue :=
  segments Command.isHalt q

def writes (q : Queue) : List Write :=
  q.filterMap Command.write?

theorem cycles_ne_nil (q : Queue) : q.cycles ≠ [] :=
  segments_ne_nil Command.isHalt q

theorem cycles_halt (q : Queue) : cycles (.halt :: q) = [] :: q.cycles :=
  segments_cons_cut rfl q

/-- A step that ends no cycle belongs to the first one. -/
theorem cycles_step {step : Command} (h : step.isHalt = false) (q : Queue) :
    cycles (step :: q) = q.cycles.modifyHead (step :: ·) := by
  obtain ⟨c, cs, hq⟩ := List.exists_cons_of_ne_nil q.cycles_ne_nil
  rw [hq, List.modifyHead_cons]
  exact segments_cons_keep h hq

theorem mem_writes {q : Queue} {w : Write} : w ∈ q.writes ↔ .write w ∈ q := by
  rw [writes, List.mem_filterMap]
  constructor
  · rintro ⟨step, hstep, hw⟩
    cases step <;> cases hw
    exact hstep
  · intro h
    exact ⟨.write w, h, rfl⟩

end Queue

end GoldenTrace
