import GoldenTrace.Proofs.Machine

/-!
# The stack

A push moves the stack pointer down before each of its two writes, and a pop moves it up
over two bytes and finds the word there. Whatever the machine, a pop takes back what a push
has left: the word, and the stack pointer as it was. This also holds at the ends of memory,
where the address below the first is the last.
-/

namespace GoldenTrace

namespace Machine

/-! ## The stack pointer at the moment of a write -/

/-- Whenever a byte of memory is written, the stack pointer holds its address. -/
def Points (m : Machine) (q : Queue) : Prop :=
  ∀ before a v after, q = before ++ .write (.memory a v) :: after → (m.run before).sp = a

theorem points_nil (m : Machine) : m.Points [] := by
  intro before a v after h
  have hlength := congrArg List.length h
  rw [List.length_append, List.length_cons, List.length_nil] at hlength
  omega

theorem points_halt {m : Machine} {q : Queue} (h : m.Points q) : m.Points (.halt :: q) := by
  intro before a v after hq
  rcases before with _ | ⟨step, before⟩
  · cases hq
  · obtain ⟨rfl, hrest⟩ := List.cons.inj hq
    exact h before a v after hrest

/-- The first write counts as well, and the others come after it. -/
theorem points_write {m : Machine} {w : Write} {q : Queue}
    (hw : ∀ a v, w = .memory a v → m.sp = a) (h : (m.apply w).Points q) :
    m.Points (.write w :: q) := by
  intro before a v after hq
  rcases before with _ | ⟨step, before⟩
  · obtain ⟨hwrite, -⟩ := List.cons.inj hq
    exact hw a v (Command.write.inj hwrite)
  · obtain ⟨rfl, hrest⟩ := List.cons.inj hq
    exact h before a v after hrest

theorem points_memory {m : Machine} {q : Queue} {v : UInt8} (h : (m.store m.sp v).Points q) :
    m.Points (.write (.memory m.sp v) :: q) := by
  refine points_write ?_ h
  intro a v' heq
  cases heq
  rfl

theorem points_stackPointer {m : Machine} {q : Queue} {s : UInt16}
    (h : ({ m with sp := s } : Machine).Points q) :
    m.Points (.write (.register16 .sp s) :: q) := by
  refine points_write ?_ h
  intro a v heq
  cases heq

/-! ## Pushes -/

/-- `m'` is `m` with `v` on a stack whose pointer was `s`: the high byte stands below the old
pointer and the low byte below the high one. Nothing else differs but the pointer. -/
structure Pushed (m : Machine) (s v : UInt16) (m' : Machine) : Prop where
  high : m'.mem (s - 1) = highByte v
  low : m'.mem (s - 2) = lowByte v
  others : ∀ a, a ≠ s - 1 → a ≠ s - 2 → m'.mem a = m.mem a
  sp : m'.sp = s - 2
  rest : m' = { m with sp := m'.sp, mem := m'.mem }

theorem run_pushWord_eq (m : Machine) (s v : UInt16) :
    m.run (Queue.pushWord s v) = { m with sp := s }.push v :=
  rfl

theorem pushed_run_pushWord (m : Machine) (s v : UInt16) :
    m.Pushed s v (m.run (Queue.pushWord s v)) := by
  rw [run_pushWord_eq]
  refine ⟨mem_push_high _ v, mem_push_low _ v, ?_, rfl, rfl⟩
  intro a hhigh hlow
  show Function.update (Function.update m.mem _ _) _ _ a = _
  rw [Function.update_of_ne hlow, Function.update_of_ne hhigh]

/-- Each byte is written where the stack pointer has just moved to. -/
theorem points_pushWord (m : Machine) (s v : UInt16) : m.Points (Queue.pushWord s v) := by
  apply points_stackPointer
  apply points_halt
  apply points_memory (m := { m with sp := s - 1 })
  apply points_stackPointer
  apply points_halt
  apply points_memory (m := { m.store (s - 1) (highByte v) with sp := s - 2 })
  apply points_halt
  exact points_nil _

/-! ## Pops -/

/-- The word on top of a stack is the one that was pushed. -/
theorem Pushed.wordAt_eq {m m' : Machine} {s v : UInt16} (h : m.Pushed s v m') :
    wordAt m'.mem m'.sp = v := by
  rw [wordAt, h.sp, sub_two_add_one, h.high, h.low, word_highByte_lowByte]

/-- A pop moves the stack pointer over its two bytes. It may enable interrupts. -/
theorem run_popWord_eq (m : Machine) (enable : Bool) :
    m.run (Queue.popWord m.sp (if enable then [.setIme true] else [])) =
      { m with sp := m.sp + 2, ime := m.ime || enable } := by
  cases enable with
  | false =>
      rw [Bool.or_false]
      rfl
  | true =>
      rw [Bool.or_true]
      rfl

/-- **A pop takes back what a push has left.** The writes of a push put the two bytes of the
word below the old stack pointer and change nothing else, and the pointer holds the address
of each byte when it is written. From any machine with that pointer and that memory, a pop
finds the word and leaves the pointer as it was before the push. -/
theorem pop_push (m : Machine) (s v : UInt16) :
    m.Pushed s v (m.run (Queue.pushWord s v)) ∧ m.Points (Queue.pushWord s v) ∧
      ∀ n : Machine, n.sp = (m.run (Queue.pushWord s v)).sp →
        n.mem = (m.run (Queue.pushWord s v)).mem →
        wordAt n.mem n.sp = v ∧
          ∀ enable, n.run (Queue.popWord n.sp (if enable then [.setIme true] else [])) =
            { n with sp := s, ime := n.ime || enable } := by
  have hpushed := pushed_run_pushWord m s v
  refine ⟨hpushed, points_pushWord m s v, ?_⟩
  intro n hsp hmem
  constructor
  · rw [hsp, hmem]
    exact hpushed.wordAt_eq
  · intro enable
    have hback : n.sp + 2 = s := by
      rw [hsp, hpushed.sp]
      exact UInt16.sub_add_cancel s 2
    rw [run_popWord_eq, hback]

/-- From a stack pointer of one the low byte goes to the last address, and the pop of a
`RETI` finds the word again. -/
theorem pop_push_wrapped :
    let m := PresetName.highstack.preset.machine 0
    let m' := m.run (Queue.pushWord 1 0x1234)
    m'.mem 0 = 0x12 ∧ m'.mem 0xFFFF = 0x34 ∧ m'.mem 1 = m.mem 1 ∧ m'.sp = 0xFFFF ∧
      wordAt m'.mem m'.sp = 0x1234 ∧
      m'.run (Queue.popWord m'.sp [.setIme true]) = { m' with sp := 1, ime := true } := by
  intro m m'
  obtain ⟨hpushed, -, hpop⟩ := pop_push m 1 0x1234
  obtain ⟨hword, hback⟩ := hpop m' rfl rfl
  have hother : m'.mem 1 = m.mem 1 := hpushed.others 1 (by decide) (by decide)
  exact ⟨hpushed.high, hpushed.low, hother, hpushed.sp, hword, hback true⟩

end Machine

end GoldenTrace
