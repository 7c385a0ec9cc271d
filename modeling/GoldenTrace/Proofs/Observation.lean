import GoldenTrace.Proofs.Agreement
import Mathlib.Data.Multiset.AddSub
import Mathlib.Logic.Function.Basic

/-!
# What can be seen of a device

A device that executes a queue has a cell for every target. When a machine cycle
ends, the cells can be looked at, and the suspensions that were requested in the
cycle. Two queues that agree cannot be told apart in this way, whatever the cells
held before: the steps of a cycle stand in another order only where no target is
contested, and there it does not matter which write of a target comes last.
-/

namespace GoldenTrace

/-- A value for every target, each a cell of its own. -/
abbrev Cells := Target → Value

namespace Cells

def step (cells : Cells) : Command → Cells
  | .write w => Function.update cells w.target w.value
  | .halt | .suspend _ => cells

def exec (cells : Cells) (q : Queue) : Cells :=
  q.foldl step cells

end Cells

/-- What is seen when a cycle ends. -/
structure View where
  cells : Cells
  /-- The suspensions requested in the cycle, in no order. -/
  requests : Multiset Suspend

def Command.suspend? : Command → Option Suspend
  | suspend s => some s
  | _ => none

namespace Queue

/-- Executes a queue step by step and looks at the device at the end of every
machine cycle and of the queue. `requests` are those of the first cycle so far. -/
def views (cells : Cells) (requests : Multiset Suspend) : Queue → List View
  | [] => [⟨cells, requests⟩]
  | .write w :: q => views (cells.step (.write w)) requests q
  | .suspend s :: q => views cells (s ::ₘ requests) q
  | .halt :: q => ⟨cells, requests⟩ :: views cells 0 q

/-- The last view is of the device that has executed the whole queue. -/
theorem getLast?_views (cells : Cells) (requests : Multiset Suspend) (q : Queue) :
    (views cells requests q).getLast?.map View.cells = some (cells.exec q) := by
  induction q generalizing cells requests with
  | nil => rfl
  | cons step q ih =>
      cases step with
      | write w => exact ih _ _
      | suspend s => exact ih _ _
      | halt =>
          have hrest := ih cells 0
          rw [views, List.getLast?_cons]
          cases hlast : (views cells 0 q).getLast? with
          | none =>
              rw [hlast] at hrest
              cases hrest
          | some v =>
              rw [hlast] at hrest
              exact hrest

/-! ## Cycle by cycle -/

def requests (cycle : Queue) : Multiset Suspend :=
  (cycle.filterMap Command.suspend? : List Suspend)

/-- The views of a device that executes one cycle after the other. -/
def cycleViews (cells : Cells) : List Queue → List View
  | [] => []
  | c :: cs => ⟨cells.exec c, c.requests⟩ :: cycleViews (cells.exec c) cs

/-- One cycle at a time is the same as one step at a time. -/
theorem views_eq {q c : Queue} {cs : List Queue} (h : q.cycles = c :: cs) (cells : Cells)
    (before : Multiset Suspend) :
    views cells before q =
      ⟨cells.exec c, c.requests + before⟩ :: cycleViews (cells.exec c) cs := by
  -- `before` grows with every request and is given up at the end of the cycle
  induction q generalizing cells before c cs with
  | nil =>
      obtain ⟨rfl, rfl⟩ := List.cons.inj h
      rw [views, requests, List.filterMap_nil, Multiset.coe_nil, Multiset.zero_add]
      rfl
  | cons step q ih =>
      obtain ⟨d, ds, hq⟩ := List.exists_cons_of_ne_nil (cycles_ne_nil q)
      cases step with
      | write w =>
          rw [cycles_step rfl, hq] at h
          obtain ⟨rfl, rfl⟩ := List.cons.inj h
          exact ih hq _ before
      | suspend s =>
          rw [cycles_step rfl, hq] at h
          obtain ⟨rfl, rfl⟩ := List.cons.inj h
          have hrequests : requests (.suspend s :: d) = s ::ₘ d.requests := rfl
          rw [views, ih hq, hrequests, Multiset.add_cons, Multiset.cons_add]
          rfl
      | halt =>
          rw [cycles_halt, hq] at h
          obtain ⟨rfl, rfl⟩ := List.cons.inj h
          have hrequests : requests [] = 0 := rfl
          rw [views, ih hq, hrequests, Multiset.zero_add, Multiset.add_zero]
          rfl

theorem views_eq_cycleViews (cells : Cells) (q : Queue) :
    views cells 0 q = cycleViews cells q.cycles := by
  obtain ⟨c, cs, hq⟩ := List.exists_cons_of_ne_nil (cycles_ne_nil q)
  rw [views_eq hq, hq, Multiset.add_zero]
  rfl

/-! ## One cycle -/

/-- Two steps commute unless they write two values to one target. -/
theorem step_comm {x y : Command}
    (h : ∀ w v, x = .write w → y = .write v → w.target = v.target → w.value = v.value)
    (cells : Cells) : (cells.step x).step y = (cells.step y).step x := by
  cases x with
  | halt | suspend => rfl
  | write w =>
      cases y with
      | halt | suspend => rfl
      | write v =>
          by_cases htarget : w.target = v.target
          · have hvalue := h w v rfl rfl htarget
            rw [Write.ext_of_target_value htarget hvalue]
          · exact Function.update_comm htarget _ _ _

/-- Where no target is contested, the order of the steps cannot be seen. -/
theorem exec_eq_of_perm {c d : Queue} (h : c.Perm d) (hc : ¬ Contested c) (cells : Cells) :
    cells.exec c = cells.exec d := by
  refine h.foldl_eq' ?_ cells
  intro x hx y hy cells
  refine step_comm ?_ cells
  rintro w v rfl rfl htarget
  -- two values for one target would make the target contested
  by_contra hvalue
  exact hc ⟨v, mem_writes.mpr hy, w, mem_writes.mpr hx, htarget, hvalue⟩

theorem Agrees.exec_eq {c d : Queue} (h : Agrees c d) (cells : Cells) :
    cells.exec c = cells.exec d := by
  by_cases hc : Contested c
  · rw [h.2 hc]
  · exact exec_eq_of_perm h.1.symm hc cells

theorem Agrees.requests_eq {c d : Queue} (h : Agrees c d) : c.requests = d.requests :=
  Multiset.coe_eq_coe.mpr (h.1.symm.filterMap _)

/-! ## Whole queues -/

/-- Both devices start a cycle from the same cells, so they end it with the same
cells. -/
theorem cycleViews_eq {cs ds : List Queue} (h : List.Forall₂ Agrees cs ds) (cells : Cells) :
    cycleViews cells cs = cycleViews cells ds := by
  induction h generalizing cells with
  | nil => rfl
  | cons hcd _ ih =>
      rw [cycleViews, cycleViews, hcd.exec_eq, hcd.requests_eq, ih]

/-- **Queues that agree look the same.** From whatever cells they are executed, the
cells and the requested suspensions are the same at the end of every machine
cycle, and the cells are the same in the end. -/
theorem views_eq_of_compare {e a : Queue} (h : compare e a = []) (cells : Cells) :
    views cells 0 e = views cells 0 a ∧ cells.exec e = cells.exec a := by
  have hviews : views cells 0 e = views cells 0 a := by
    rw [views_eq_cycleViews, views_eq_cycleViews]
    exact cycleViews_eq (compare_eq_nil_iff.mp h) cells
  refine ⟨hviews, ?_⟩
  have hlast := getLast?_views cells 0 e
  rw [hviews, getLast?_views] at hlast
  exact (Option.some.inj hlast).symm

/-- Two cycles: one without a contested target, and one that writes the data bus
twice. -/
def shownSample : Queue :=
  [.write (.dataBus 1), .suspend .stop, .write (.pc 7), .write (.dataBus 1), .suspend .halt,
    .halt, .write (.dataBus 2), .write (.dataBus 3)]

/-- The same with the first cycle in another order. -/
def shuffledSample : Queue :=
  [.suspend .halt, .write (.dataBus 1), .write (.dataBus 1), .suspend .stop, .write (.pc 7),
    .halt, .write (.dataBus 2), .write (.dataBus 3)]

theorem compare_shuffledSample : compare shownSample shuffledSample = [] := by
  have hfree : ¬ Contested (shownSample.take 5) := by
    rw [← orderMatters_iff]
    decide
  refine compare_eq_nil_iff.mpr (.cons ⟨?_, fun h => absurd h hfree⟩ (.cons (.refl _) .nil))
  decide

/-- Whether the cells hold zeros before or not, the order of the first cycle is not
seen. -/
theorem views_eq_of_compare_shuffled :
    compare shownSample shuffledSample = [] ∧ shownSample ≠ shuffledSample ∧
      views (fun _ => .byte 0) 0 shownSample = views (fun _ => .byte 0) 0 shuffledSample :=
  ⟨compare_shuffledSample, by decide,
    (views_eq_of_compare compare_shuffledSample fun _ => .byte 0).1⟩

end Queue

end GoldenTrace
