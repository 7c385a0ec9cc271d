import GoldenTrace.Command.Queue

/-!
# The order of commands

Commands are ordered so that the steps of a cycle can be sorted: writes come
before cycle ends and these before suspensions. Writes are ordered by their
targets first, in the order of the kinds of targets, and then by their values.
Every command has a key, and commands are ordered as their keys are.
-/

namespace GoldenTrace

/-- Targets of one kind stand together, flags from the lowest bit up. -/
def Target.key : Target → List Nat
  | register8 r => [0, r.ctorIdx]
  | register16 rr => [1, rr.ctorIdx]
  | memory a => [2, a.toNat]
  | flag f => [3, f.mask.toNat]
  | ime => [4]
  | addressBus => [5]
  | dataBus => [6]
  | pc => [7]
  | ir => [8]

def Value.key : Value → List Nat
  | byte v => [0, v.toNat]
  | word v => [1, v.toNat]

def Write.key (w : Write) : List Nat :=
  w.target.key ++ w.value.key

namespace Command

def key : Command → List Nat
  | write w => 0 :: w.key
  | halt => [1]
  | suspend s => [2, s.ctorIdx]

/-- Whether a command may stand before another in a sorted cycle: unless the key
of the other comes first. -/
def le (a b : Command) : Bool :=
  !b.key.lex a.key

end Command

/-- The steps of a cycle in order. -/
def Queue.sorted (cycle : Queue) : Queue :=
  cycle.mergeSort Command.le

end GoldenTrace
