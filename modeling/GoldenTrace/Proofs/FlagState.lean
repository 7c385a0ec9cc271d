import GoldenTrace.Proofs.Machine

/-!
# The flags of a machine

The flags of a machine are bits of register `F`, and the arithmetic unit reports to them by
an update: some flags get a state and the others stay. The writes of an update carry it out
on the machine, and put nothing anywhere but in register `F`.
-/

namespace GoldenTrace

namespace Flags

def set (flags : Flags) (f : Flag) (b : Bool) : Flags :=
  match f with
  | .z => { flags with z := b }
  | .n => { flags with n := b }
  | .h => { flags with h := b }
  | .c => { flags with c := b }

/-- The flags after an update. A flag without a state stays as it was. -/
def update (flags : Flags) (u : FlagUpdate) : Flags where
  z := u.z.getD flags.z
  n := u.n.getD flags.n
  h := u.h.getD flags.h
  c := u.c.getD flags.c

theorem get_set (flags : Flags) (f g : Flag) (b : Bool) :
    (flags.set f b).get g = if g = f then b else flags.get g := by
  cases f <;> cases g <;> rfl

theorem ext_get {x y : Flags} (h : ∀ f, x.get f = y.get f) : x = y := by
  obtain ⟨z, n, h', c⟩ := x
  obtain ⟨z', n', h'', c'⟩ := y
  obtain rfl : z = z' := h .z
  obtain rfl : n = n' := h .n
  obtain rfl : h' = h'' := h .h
  obtain rfl : c = c' := h .c
  rfl

/-- An update sets one flag after the other. -/
theorem update_eq_foldl (flags : Flags) (u : FlagUpdate) :
    flags.update u =
      Flag.order.foldl (fun fs f => (u.get f).elim fs (fs.set f)) flags := by
  obtain ⟨z, n, h, c⟩ := u
  cases z <;> cases n <;> cases h <;> cases c <;> rfl

/-! ## Bits of the register -/

theorem get_ofByte (v : UInt8) (f : Flag) : (ofByte v).get f = (v &&& f.mask != 0) := by
  cases f <;> rfl

theorem mask_and_mask {f g : Flag} (h : g ≠ f) : f.mask &&& g.mask = 0 := by
  cases f <;> cases g <;> first | rfl | exact absurd rfl h

theorem not_mask_and_mask {f g : Flag} (h : g ≠ f) : ~~~f.mask &&& g.mask = g.mask := by
  cases f <;> cases g <;> first | rfl | exact absurd rfl h

theorem or_and (v w x : UInt8) : (v ||| w) &&& x = v &&& x ||| w &&& x := by
  apply UInt8.toNat_inj.mp
  simp only [UInt8.toNat_and, UInt8.toNat_or]
  exact Nat.and_or_distrib_right ..

theorem or_mask_ne_zero (v : UInt8) (f : Flag) : v &&& f.mask ||| f.mask ≠ 0 := by
  intro h
  have hzero : (v &&& f.mask).toNat ||| f.mask.toNat = 0 := by
    rw [← UInt8.toNat_or, h]
    rfl
  have hmask : f.mask.toNat = 0 := (Nat.or_eq_zero_iff.mp hzero).2
  cases f <;> cases hmask

/-- To set or clear the bit of a flag is to set or clear this flag. -/
theorem ofByte_setBit (v : UInt8) (f : Flag) (b : Bool) :
    ofByte (if b then v ||| f.mask else v &&& ~~~f.mask) = (ofByte v).set f b := by
  apply ext_get
  intro g
  rw [get_set, get_ofByte, get_ofByte]
  by_cases hg : g = f
  · subst hg
    rw [if_pos rfl]
    cases b with
    | true =>
        rw [if_pos rfl, or_and, UInt8.and_self]
        exact bne_iff_ne.mpr (or_mask_ne_zero v g)
    | false =>
        rw [if_neg Bool.false_ne_true, UInt8.and_assoc, UInt8.not_and_self, UInt8.and_zero]
        rfl
  · rw [if_neg hg]
    cases b with
    | true =>
        rw [if_pos rfl, or_and, mask_and_mask hg, UInt8.or_zero]
    | false =>
        rw [if_neg Bool.false_ne_true, UInt8.and_assoc, not_mask_and_mask hg]

end Flags

/-! ## Updates of machines -/

namespace Machine

def flags (m : Machine) : Flags :=
  .ofByte (m.reg .f)

theorem flags_set8_f (m : Machine) (v : UInt8) : (m.set8 .f v).flags = .ofByte v := by
  show Flags.ofByte (Function.update m.reg .f v .f) = _
  rw [Function.update_self]

theorem flags_set8 (m : Machine) {r : Reg8} (h : r ≠ .f) (v : UInt8) :
    (m.set8 r v).flags = m.flags := by
  show Flags.ofByte (Function.update m.reg r v .f) = _
  rw [Function.update_of_ne h.symm]
  rfl

theorem flags_set16_hl (m : Machine) (v : UInt16) : (m.set16 .hl v).flags = m.flags := by
  show ((m.set8 .h (highByte v)).set8 .l (lowByte v)).flags = m.flags
  rw [flags_set8 _ (by decide), flags_set8 _ (by decide)]

theorem exists_setFlag (m : Machine) (f : Flag) (b : Bool) :
    ∃ v, m.apply (.setFlag f b) = m.set8 .f v ∧ Flags.ofByte v = m.flags.set f b := by
  have hbit : (Write.bit b != 0) = b := by cases b <;> rfl
  refine ⟨_, ?_, Flags.ofByte_setBit (m.reg .f) f b⟩
  show m.setFlag f (Write.bit b != 0) = _
  rw [hbit]
  rfl

/-- One flag after the other, the last byte in register `F` is what remains. -/
theorem exists_run_flags (u : FlagUpdate) (fs : List Flag) (m : Machine) :
    ∃ v, m.run (Queue.ofWrites (fs.filterMap fun f => (u.get f).map (Write.setFlag f))) =
        m.set8 .f v ∧
      Flags.ofByte v = fs.foldl (fun gs f => (u.get f).elim gs (gs.set f)) m.flags := by
  induction fs generalizing m with
  | nil =>
      refine ⟨m.reg .f, ?_, rfl⟩
      rw [set8, Function.update_eq_self]
      rfl
  | cons f fs ih =>
      cases hu : u.get f with
      | none =>
          simp only [List.filterMap_cons, List.foldl_cons, hu, Option.map_none, Option.elim_none]
          exact ih m
      | some b =>
          simp only [List.filterMap_cons, List.foldl_cons, hu, Option.map_some, Option.elim_some]
          obtain ⟨v, hv, hflags⟩ := m.exists_setFlag f b
          obtain ⟨w, hw, hrest⟩ := ih (m.set8 .f v)
          refine ⟨w, ?_, ?_⟩
          · show (m.apply (.setFlag f b)).run (Queue.ofWrites _) = _
            rw [hv, hw, set8_set8]
          · rw [hrest, flags_set8_f, hflags]

/-- The writes of an update carry it out. They change register `F` and nothing else. -/
theorem exists_run_ofFlags (m : Machine) (u : FlagUpdate) :
    ∃ v, m.run (Queue.ofFlags u) = m.set8 .f v ∧ Flags.ofByte v = m.flags.update u := by
  rw [Flags.update_eq_foldl]
  exact exists_run_flags u Flag.order m

theorem flags_run_ofFlags (m : Machine) (u : FlagUpdate) :
    (m.run (Queue.ofFlags u)).flags = m.flags.update u := by
  obtain ⟨v, hv, hflags⟩ := m.exists_run_ofFlags u
  rw [hv, flags_set8_f, hflags]

theorem flags_setFlags (m : Machine) (z n h c : Bool) :
    (m.setFlags z n h c).flags = ⟨z, n, h, c⟩ := by
  rw [← run_ofFlags, flags_run_ofFlags]
  rfl

theorem Holds.flags_machine {m : Machine} {p : Preset} (h : m.Holds p) (ir : UInt8) :
    (p.machine ir).flags = m.flags := by
  show Flags.ofByte (p.regs.get8 .f) = Flags.ofByte (m.reg .f)
  rw [h.reg]

end Machine

end GoldenTrace
