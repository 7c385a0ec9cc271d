import GoldenTrace.Comparison
import Mathlib.Data.List.Forall2

/-!
# What the comparison decides

The comparison scans a cycle for overwritten values and otherwise compares
sorted steps. Here both are given their meaning: the scan finds any two
different values of one target, wherever they stand, and the sorted steps are
equal exactly if the steps are permutations of each other. From this the
verdict on two queues is read off cycle by cycle.
-/

namespace GoldenTrace

/-! ## Sorting tells permutations apart and nothing else -/

theorem Target.key_append_injective {t u : Target} {x y : List Nat}
    (hx : x.length = 2) (hy : y.length = 2) (h : t.key ++ x = u.key ++ y) :
    t = u ∧ x = y := by
  have hlen : t.key.length = u.key.length := by
    have := congrArg List.length h
    simp only [List.length_append] at this
    omega
  obtain ⟨hkey, hxy⟩ := List.append_inj h hlen
  refine ⟨?_, hxy⟩
  cases t <;> cases u <;> simp only [Target.key, List.cons.injEq] at hkey <;>
    simp_all
  case register8.register8 r s => cases r <;> cases s <;> first | rfl | contradiction
  case register16.register16 r s => cases r <;> cases s <;> first | rfl | contradiction
  case memory.memory a b => exact UInt16.toNat_inj.mp hkey
  case flag.flag f g => cases f <;> cases g <;> first | rfl | contradiction

theorem Value.key_injective {v w : Value} (h : v.key = w.key) : v = w := by
  cases v <;> cases w <;> simp only [Value.key, List.cons.injEq] at h <;> simp_all
  case byte.byte a b => exact UInt8.toNat_inj.mp h
  case word.word a b => exact UInt16.toNat_inj.mp h

theorem Write.ext_of_target_value {w v : Write} (ht : w.target = v.target)
    (hv : w.value = v.value) : w = v := by
  have h := Write.of?_target_value w
  rw [ht, hv, Write.of?_target_value v] at h
  exact (Option.some.inj h).symm

theorem Value.length_key (v : Value) : v.key.length = 2 := by
  cases v <;> rfl

namespace Command

/-- Only equal commands have equal keys. -/
theorem key_injective {c d : Command} (h : c.key = d.key) : c = d := by
  cases c <;> cases d <;> simp only [key, List.cons.injEq] at h <;> simp_all
  case write.write w v =>
    obtain ⟨ht, hv⟩ := Target.key_append_injective w.value.length_key v.value.length_key h
    exact Write.ext_of_target_value ht (Value.key_injective hv)
  case suspend.suspend s t => cases s <;> cases t <;> first | rfl | contradiction

theorem le_trans (a b c : Command) (hab : le a b = true) (hbc : le b c = true) :
    le a c = true := by
  simp only [le, Bool.not_eq_true', List.lex_eq_false_iff_ge] at *
  exact List.le_trans hab hbc

theorem le_total (a b : Command) : (le a b || le b a) = true := by
  simp only [le, Bool.or_eq_true, Bool.not_eq_true', List.lex_eq_false_iff_ge]
  exact List.le_total a.key b.key

theorem le_antisymm {a b : Command} (hab : le a b = true) (hba : le b a = true) : a = b := by
  simp only [le, Bool.not_eq_true', List.lex_eq_false_iff_ge] at hab hba
  exact key_injective (List.le_antisymm hab hba)

end Command

namespace Queue

theorem sorted_perm (c : Queue) : c.sorted.Perm c :=
  List.mergeSort_perm c Command.le

theorem pairwise_sorted (c : Queue) : c.sorted.Pairwise (Command.le · ·) :=
  List.pairwise_mergeSort Command.le_trans Command.le_total c

/-- Two cycles have the same sorted steps exactly if one permutes the other. -/
theorem sorted_eq_sorted_iff {c d : Queue} : c.sorted = d.sorted ↔ c.Perm d := by
  constructor
  · intro h
    exact (sorted_perm c).symm.trans (h ▸ sorted_perm d)
  · intro h
    have hp : c.sorted.Perm d.sorted := (sorted_perm c).trans (h.trans (sorted_perm d).symm)
    exact hp.eq_of_pairwise (fun a b _ _ hab hba => Command.le_antisymm hab hba)
      (pairwise_sorted c) (pairwise_sorted d)

/-! ## The scan finds every contested target -/

/-- Some target receives two different values in the cycle. -/
def Contested (cycle : Queue) : Prop :=
  ∃ w ∈ cycle.writes, ∃ v ∈ cycle.writes, v.target = w.target ∧ v.value ≠ w.value

/-- No write changes a value: neither the last value from before nor that of
another write. -/
def Steady (last : Target → Option Value) (ws : List Write) : Prop :=
  (∀ w ∈ ws, ∀ u, last w.target = some u → u = w.value) ∧
    ∀ w ∈ ws, ∀ v ∈ ws, v.target = w.target → v.value = w.value

/-- One step of the scan: what a write leaves to remember says of the later
writes all that the write itself did. -/
theorem steady_cons {last : Target → Option Value} {w : Write} {ws : List Write} :
    Steady last (w :: ws) ↔
      (∀ u, last w.target = some u → u = w.value) ∧ Steady (remember last w) ws := by
  constructor
  · rintro ⟨hlast, hpair⟩
    refine ⟨hlast w List.mem_cons_self, ?_, ?_⟩
    · intro v hv u hu
      by_cases ht : v.target = w.target
      · rw [remember, if_pos ht] at hu
        rw [← Option.some.inj hu]
        exact (hpair w List.mem_cons_self v (List.mem_cons_of_mem _ hv) ht).symm
      · rw [remember, if_neg ht] at hu
        exact hlast v (List.mem_cons_of_mem _ hv) u hu
    · intro v hv x hx
      exact hpair v (List.mem_cons_of_mem _ hv) x (List.mem_cons_of_mem _ hx)
  · rintro ⟨hw, hlast, hpair⟩
    -- every later write to the target of `w` has the value that `w` left there
    have hsame : ∀ v ∈ ws, v.target = w.target → v.value = w.value := by
      intro v hv ht
      exact (hlast v hv w.value (by rw [remember, if_pos ht])).symm
    refine ⟨?_, ?_⟩
    · intro v hv u hu
      rcases List.mem_cons.mp hv with rfl | hv
      · exact hw u hu
      · by_cases ht : v.target = w.target
        · rw [hsame v hv ht]
          exact hw u (ht ▸ hu)
        · exact hlast v hv u (by rw [remember, if_neg ht]; exact hu)
    · intro v hv x hx ht
      rcases List.mem_cons.mp hv with rfl | hv' <;> rcases List.mem_cons.mp hx with rfl | hx'
      · rfl
      · exact hsame x hx' ht
      · exact (hsame v hv' ht.symm).symm
      · exact hpair v hv' x hx' ht

@[simp] theorem writes_nil : writes [] = [] := rfl

@[simp] theorem writes_write (w : Write) (q : Queue) :
    writes (.write w :: q) = w :: writes q := rfl

@[simp] theorem writes_halt (q : Queue) : writes (.halt :: q) = writes q := rfl

@[simp] theorem writes_suspend (s : Suspend) (q : Queue) :
    writes (.suspend s :: q) = writes q := rfl

@[simp] theorem writes_append (q q' : Queue) : writes (q ++ q') = writes q ++ writes q' :=
  List.filterMap_append

/-- The whole scan: it stays silent exactly if every write is steady. -/
theorem overwrites_eq_false_iff (last : Target → Option Value) (q : Queue) :
    overwrites last q = false ↔ Steady last q.writes := by
  induction q generalizing last with
  | nil => simp [overwrites, Steady]
  | cons c q ih =>
      cases c with
      | write w =>
          rw [overwrites, Bool.or_eq_false_iff, ih, writes_write, steady_cons]
          cases last w.target with
          | none => simp
          | some v => simp
      | halt => simpa [overwrites] using ih last
      | suspend s => simpa [overwrites] using ih last

/-- The order of a cycle matters exactly if a target is contested in it. -/
theorem orderMatters_iff {cycle : Queue} : orderMatters cycle = true ↔ Contested cycle := by
  rw [← Bool.not_eq_false, orderMatters, overwrites_eq_false_iff]
  simp [Steady, Contested]

theorem Contested.of_perm {c d : Queue} (h : c.Perm d) : Contested c → Contested d := by
  rintro ⟨w, hw, v, hv, hne⟩
  have hmem : ∀ {x}, x ∈ c.writes → x ∈ d.writes := fun hx => (h.filterMap _).subset hx
  exact ⟨w, hmem hw, v, hmem hv, hne⟩

/-! ## Agreement of cycles -/

/-- The steps of a cycle may come in any order, but in the given order if a
target is contested. -/
def Agrees (expected actual : Queue) : Prop :=
  actual.Perm expected ∧ (Contested expected → actual = expected)

theorem cycleMatches_iff {e a : Queue} : cycleMatches e a = true ↔ Agrees e a := by
  unfold cycleMatches
  split
  case isTrue h =>
    rw [Bool.or_eq_true, orderMatters_iff, orderMatters_iff] at h
    rw [beq_iff_eq]
    constructor
    · rintro rfl
      exact ⟨.refl _, fun _ => rfl⟩
    · rintro ⟨hp, heq⟩
      exact (heq (h.elim id (Contested.of_perm hp))).symm
  case isFalse h =>
    rw [Bool.or_eq_true, orderMatters_iff, orderMatters_iff, not_or] at h
    rw [beq_iff_eq, sorted_eq_sorted_iff]
    constructor
    · intro hp
      exact ⟨hp.symm, fun hc => absurd hc h.1⟩
    · rintro ⟨hp, -⟩
      exact hp.symm

theorem Agrees.refl (c : Queue) : Agrees c c :=
  ⟨.refl c, fun _ => rfl⟩

theorem Agrees.symm {c d : Queue} (h : Agrees c d) : Agrees d c :=
  ⟨h.1.symm, fun hd => (h.2 (hd.of_perm h.1)).symm⟩

theorem Agrees.trans {c d e : Queue} (hcd : Agrees c d) (hde : Agrees d e) : Agrees c e := by
  refine ⟨hde.1.trans hcd.1, ?_⟩
  intro hc
  rw [hde.2 (hc.of_perm hcd.1.symm), hcd.2 hc]

theorem forall₂_trans {p q r : List Queue} (hpq : List.Forall₂ Agrees p q)
    (hqr : List.Forall₂ Agrees q r) : List.Forall₂ Agrees p r := by
  induction hpq generalizing r with
  | nil => exact hqr
  | cons hcd _ ih =>
      cases hqr with
      | cons hde hrest => exact .cons (hcd.trans hde) (ih hrest)

/-! ## The verdict on two queues -/

/-- The indices that are reported, counted from `n`, in increasing order: those
of the cycles that do not agree. -/
theorem differences_eq (n : Nat) (es as : List Queue) :
    ∃ is : List Nat, differences n es as = is.map .cycle ∧ is.Pairwise (· < ·) ∧
      ∀ i, i ∈ is ↔
        ∃ j c d, i = n + j ∧ es[j]? = some c ∧ as[j]? = some d ∧ ¬ Agrees c d := by
  induction es generalizing n as with
  | nil => exact ⟨[], by simp [differences]⟩
  | cons e es ih =>
      cases as with
      | nil => exact ⟨[], by simp [differences]⟩
      | cons a as =>
          obtain ⟨is, heq, hlt, hmem⟩ := ih (n + 1) as
          -- an index of the rest is one further on in the whole
          have hrest : ∀ i, i ∈ is ↔ ∃ j c d, i = n + (j + 1) ∧ (e :: es)[j + 1]? = some c ∧
              (a :: as)[j + 1]? = some d ∧ ¬ Agrees c d := by
            intro i
            rw [hmem]
            simp only [List.getElem?_cons_succ, Nat.add_assoc, Nat.add_comm 1]
          by_cases h : Agrees e a
          · refine ⟨is, ?_, hlt, ?_⟩
            · rw [differences, if_pos (cycleMatches_iff.mpr h), heq]
            · intro i
              rw [hrest]
              constructor
              · rintro ⟨j, hj⟩
                exact ⟨j + 1, hj⟩
              · rintro ⟨j, c, d, rfl, hc, hd, hcd⟩
                cases j with
                | zero =>
                    simp only [List.getElem?_cons_zero, Option.some.injEq] at hc hd
                    exact absurd (hc ▸ hd ▸ h) hcd
                | succ j => exact ⟨j, c, d, rfl, hc, hd, hcd⟩
          · refine ⟨n :: is, ?_, ?_, ?_⟩
            · rw [differences, if_neg (mt cycleMatches_iff.mp h), heq, List.map_cons]
            · refine List.pairwise_cons.mpr ⟨?_, hlt⟩
              intro i hi
              obtain ⟨j, -, -, rfl, -⟩ := (hmem i).mp hi
              omega
            · intro i
              rw [List.mem_cons, hrest]
              constructor
              · rintro (rfl | ⟨j, hj⟩)
                · exact ⟨0, e, a, rfl, rfl, rfl, h⟩
                · exact ⟨j + 1, hj⟩
              · rintro ⟨j, c, d, rfl, hc, hd, hcd⟩
                cases j with
                | zero => exact Or.inl rfl
                | succ j => exact Or.inr ⟨j, c, d, rfl, hc, hd, hcd⟩

/-- Two queues agree exactly if their cycles do, one by one. -/
theorem compare_eq_nil_iff {e a : Queue} :
    compare e a = [] ↔ List.Forall₂ Agrees e.cycles a.cycles := by
  obtain ⟨is, heq, -, hmem⟩ := differences_eq 0 e.cycles a.cycles
  rw [compare, List.append_eq_nil_iff, heq, List.map_eq_nil_iff, List.forall₂_iff_get]
  constructor
  · rintro ⟨hlen, rfl⟩
    have hlen : e.cycles.length = a.cycles.length := by simpa using hlen
    refine ⟨hlen, ?_⟩
    intro i hi hi'
    by_contra hne
    have := (hmem i).mpr ⟨i, _, _, by omega, List.getElem?_eq_getElem hi,
      List.getElem?_eq_getElem hi', hne⟩
    simp at this
  · rintro ⟨hlen, hall⟩
    refine ⟨if_pos hlen, List.eq_nil_iff_forall_not_mem.mpr ?_⟩
    intro i hi
    obtain ⟨j, c, d, -, hc, hd, hne⟩ := (hmem i).mp hi
    obtain ⟨hj, rfl⟩ := List.getElem?_eq_some_iff.mp hc
    obtain ⟨hj', rfl⟩ := List.getElem?_eq_some_iff.mp hd
    exact hne (hall j hj hj')

/-- Agreement of queues is an equivalence. -/
theorem compare_equivalence : Equivalence fun e a : Queue => compare e a = [] := by
  refine ⟨?_, ?_, ?_⟩
  · intro q
    exact compare_eq_nil_iff.mpr (List.forall₂_same.mpr fun c _ => .refl c)
  · intro e a h
    rw [compare_eq_nil_iff] at *
    exact h.flip.imp fun _ _ => .symm
  · intro p q r hpq hqr
    rw [compare_eq_nil_iff] at *
    exact forall₂_trans hpq hqr

/-- **The verdict.** No differences are reported exactly if the queues span the
same number of cycles and every cycle agrees with its counterpart: as a
permutation of it, and step by step if a target is contested there. What is
reported otherwise is the two counts, if they differ, and then in increasing
order the cycles that both queues have and that do not agree. -/
theorem compare_verdict :
    (∀ e a : Queue, compare e a = [] ↔
      e.cycles.length = a.cycles.length ∧
        ∀ (i : Nat) (c d : Queue), e.cycles[i]? = some c → a.cycles[i]? = some d →
          d.Perm c ∧ (Contested c → d = c)) ∧
    (∀ e a : Queue, ∃ is : List Nat,
      compare e a =
          (if e.cycles.length = a.cycles.length then []
            else [.cycleCount e.cycles.length a.cycles.length]) ++ is.map .cycle ∧
        is.Pairwise (· < ·) ∧
        ∀ i : Nat, i ∈ is ↔ ∃ c d : Queue, e.cycles[i]? = some c ∧ a.cycles[i]? = some d ∧
          ¬ (d.Perm c ∧ (Contested c → d = c))) ∧
    Equivalence fun e a : Queue => compare e a = [] := by
  refine ⟨?_, ?_, compare_equivalence⟩
  · intro e a
    rw [compare_eq_nil_iff, List.forall₂_iff_get]
    refine and_congr_right fun _ => ⟨?_, ?_⟩
    · intro hall i c d hc hd
      obtain ⟨hi, rfl⟩ := List.getElem?_eq_some_iff.mp hc
      obtain ⟨hi', rfl⟩ := List.getElem?_eq_some_iff.mp hd
      exact hall i hi hi'
    · intro hall i hi hi'
      exact hall i _ _ (List.getElem?_eq_getElem hi) (List.getElem?_eq_getElem hi')
  · intro e a
    obtain ⟨is, heq, hlt, hmem⟩ := differences_eq 0 e.cycles a.cycles
    refine ⟨is, by rw [compare, heq], hlt, ?_⟩
    intro i
    rw [hmem]
    constructor
    · rintro ⟨j, c, d, hij, h⟩
      rw [Nat.zero_add] at hij
      exact ⟨c, d, hij ▸ h⟩
    · rintro ⟨c, d, h⟩
      exact ⟨i, c, d, (Nat.zero_add i).symm, h⟩

end Queue

end GoldenTrace
