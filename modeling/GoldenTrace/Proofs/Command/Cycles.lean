import GoldenTrace.Command.Queue
import GoldenTrace.Proofs.Segments

/-!
# Machine cycles of a queue

The cycles of a queue are the only lists of steps without end marks that give the
queue when they are joined by end marks. So nothing is lost when a queue is taken
apart, and it is known what becomes of the cycles when one queue follows another:
only the cycle in which the first ends and the second begins has steps of both.
-/

namespace GoldenTrace

theorem Command.isHalt_eq_beq : isHalt = (· == halt) := by
  funext step
  cases step <;> rfl

namespace Queue

/-! ## Taken apart and joined -/

theorem cycles_eq_splitOn (q : Queue) : q.cycles = q.splitOn .halt := by
  rw [cycles, segments_eq_splitOnP, Command.isHalt_eq_beq, List.splitOn_eq_splitOnP]

theorem length_cycles (q : Queue) : q.cycles.length = q.haltCount + 1 :=
  length_segments Command.isHalt q

theorem halt_not_mem_of_mem_cycles {q c : Queue} (hc : c ∈ q.cycles) : .halt ∉ c := by
  intro hmem
  cases eq_false_of_mem_segments hc .halt hmem

theorem intercalate_cycles (q : Queue) : [Command.halt].intercalate q.cycles = q := by
  rw [cycles_eq_splitOn, List.intercalate_splitOn]

theorem cycles_intercalate {cs : List Queue} (hne : cs ≠ []) (h : ∀ c ∈ cs, .halt ∉ c) :
    cycles ([Command.halt].intercalate cs) = cs := by
  rw [cycles_eq_splitOn, List.splitOn_intercalate _ h hne]

/-- There is no other way to join steps by end marks to the queue. -/
theorem cycles_eq_iff {q : Queue} {cs : List Queue} :
    q.cycles = cs ↔ cs ≠ [] ∧ (∀ c ∈ cs, .halt ∉ c) ∧ [Command.halt].intercalate cs = q := by
  constructor
  · rintro rfl
    exact ⟨q.cycles_ne_nil, fun _ => halt_not_mem_of_mem_cycles, q.intercalate_cycles⟩
  · rintro ⟨hne, h, rfl⟩
    exact cycles_intercalate hne h

/-! ## One queue after another -/

theorem cycles_append (p q : Queue) :
    cycles (p ++ q) = p.cycles.dropLast ++
      (p.cycles.getLast p.cycles_ne_nil ++ q.cycles.head q.cycles_ne_nil) :: q.cycles.tail := by
  -- there is one way only to cut a queue, so the right side has to be one
  refine cycles_eq_iff.mpr ⟨by simp, ?_, ?_⟩
  · intro c hc
    rw [List.mem_append, List.mem_cons] at hc
    rcases hc with hbefore | rfl | hafter
    · exact halt_not_mem_of_mem_cycles (List.dropLast_subset _ hbefore)
    · rw [List.mem_append, not_or]
      exact ⟨halt_not_mem_of_mem_cycles (List.getLast_mem p.cycles_ne_nil),
        halt_not_mem_of_mem_cycles (List.head_mem q.cycles_ne_nil)⟩
    · exact halt_not_mem_of_mem_cycles (List.mem_of_mem_tail hafter)
  · rw [intercalate_append_cons, List.dropLast_concat_getLast, List.cons_head_tail,
      intercalate_cycles, intercalate_cycles]

/-- **Cycles lose nothing.** A queue has one cycle more than end marks, no cycle holds an end
mark, and the cycles with one end mark between neighbours are the queue again. When one queue
follows another, the last cycle of the first and the first cycle of the second become one, and
all other cycles are as they were. -/
theorem lossless_cycles :
    (∀ q : Queue, q.cycles.length = q.haltCount + 1 ∧ (∀ c ∈ q.cycles, .halt ∉ c) ∧
      [Command.halt].intercalate q.cycles = q) ∧
    ∀ p q : Queue, cycles (p ++ q) = p.cycles.dropLast ++
      (p.cycles.getLast p.cycles_ne_nil ++ q.cycles.head q.cycles_ne_nil) :: q.cycles.tail := by
  refine ⟨?_, cycles_append⟩
  intro q
  exact ⟨q.length_cycles, fun _ => halt_not_mem_of_mem_cycles, q.intercalate_cycles⟩

/-- The second cycle is begun by one queue and ended by the other. End marks at either end and
side by side leave empty cycles. -/
theorem lossless_cycles_adjacent :
    cycles ([.halt, .write (.pc 1)] ++ [.suspend .stop, .halt, .halt]) =
        [[], [.write (.pc 1), .suspend .stop], [], []] ∧
      [.write (.pc 1)] ∈ cycles [.halt, .write (.pc 1)] ∧
      .halt ∉ ([.write (.pc 1)] : Queue) := by
  have hmem : [.write (.pc 1)] ∈ cycles [.halt, .write (.pc 1)] := by decide
  refine ⟨?_, hmem, (lossless_cycles.1 _).2.1 _ hmem⟩
  rw [lossless_cycles.2]
  decide

end Queue

end GoldenTrace
