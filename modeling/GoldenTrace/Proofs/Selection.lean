import GoldenTrace.Comparison
import GoldenTrace.Proofs.MachineCode
import GoldenTrace.Proofs.Names
import Mathlib.Data.List.Infix

/-!
# Cases selected by name

The printed forms of opcodes are a prefix code but for the page byte: what is printed of an
opcode has two digits, or four on the second page, where the first two are those of the page
byte. So a filter that is the printed form of an opcode selects the cases of this opcode, and
the page byte alone would select its whole page as well.
-/

namespace GoldenTrace

/-! ## Numerals of two and four digits -/

namespace Text

theorem digits_push {n k : Nat} (hn : 0 < n) (hk : k < 16) :
    digits 16 (n * 16 + k) = digits 16 n ++ [digit k] := by
  have hdiv : (n * 16 + k) / 16 = n := by omega
  have hmod : (n * 16 + k) % 16 = k := by omega
  rw [digits, dif_neg (by omega), hdiv, hmod]

theorem digits_of_lt {n : Nat} (h : n < 16) : digits 16 n = [digit n] := by
  rw [digits, dif_pos (Or.inr h)]

theorem hex_two {n : Nat} (h : n < 256) : hex 2 n = [digit (n / 16), digit (n % 16)] := by
  by_cases hn : n < 16
  · have hdiv : n / 16 = 0 := by omega
    have hmod : n % 16 = n := by omega
    rw [hex, digits_of_lt hn, hdiv, hmod]
    rfl
  · have hsplit : n = n / 16 * 16 + n % 16 := by omega
    have hdigits : digits 16 n = [digit (n / 16), digit (n % 16)] := by
      conv_lhs => rw [hsplit]
      rw [digits_push (by omega) (by omega), digits_of_lt (by omega)]
      rfl
    rw [hex, hdigits]
    rfl

/-- A byte behind a number is two digits behind its numeral. -/
theorem digits_byte {m n : Nat} (hm : 0 < m) (hn : n < 256) :
    digits 16 (m * 256 + n) = digits 16 m ++ hex 2 n := by
  have hsplit : m * 256 + n = (m * 16 + n / 16) * 16 + n % 16 := by omega
  rw [hsplit, digits_push (by omega) (by omega), digits_push hm (by omega), hex_two hn,
    List.append_assoc]
  rfl

theorem hex_page {n : Nat} (hn : n < 256) : hex 4 (0xCB00 + n) = hex 2 0xCB ++ hex 2 n := by
  have hpage : digits 16 0xCB = hex 2 0xCB := by
    rw [hex_two (by decide), show 0xCB = 12 * 16 + 11 from rfl, digits_push (by decide) (by decide),
      digits_of_lt (by decide)]
    rfl
  have hdigits : digits 16 (0xCB00 + n) = hex 2 0xCB ++ hex 2 n := by
    rw [show 0xCB00 + n = 0xCB * 256 + n from rfl, digits_byte (by decide) hn, hpage]
  have hlength : (hex 2 0xCB ++ hex 2 n).length = 4 := by
    rw [hex_two hn, hex_two (by decide)]
    rfl
  rw [hex, hdigits, hlength, Nat.sub_self]
  rfl

end Text

namespace EffectiveOpcode

/-! ## Printed forms -/

theorem toList_display_lead (b : UInt8) :
    (display ⟨b.toUInt16⟩).toList = '0' :: 'x' :: Text.hex 2 b.toNat := by
  rw [toList_display, onPage_ofLead, UInt8.toNat_toUInt16]
  rfl

theorem toList_display_page (b : UInt8) :
    (display ⟨0xCB00 + b.toUInt16⟩).toList =
      '0' :: 'x' :: (Text.hex 2 0xCB ++ Text.hex 2 b.toNat) := by
  rw [toList_display, onPage_ofPage, toNat_ofPage, if_pos rfl, Text.hex_page b.toNat_lt]

theorem length_hex_two (b : UInt8) : (Text.hex 2 b.toNat).length = 2 :=
  Text.length_hex (by decide) b.toNat_lt

theorem length_display_lead (b : UInt8) : (display ⟨b.toUInt16⟩).toList.length = 4 := by
  rw [toList_display_lead, List.length_cons, List.length_cons, length_hex_two]

theorem length_display_page (b : UInt8) :
    (display ⟨0xCB00 + b.toUInt16⟩).toList.length = 6 := by
  have hpage : (Text.hex 2 0xCB).length = 2 := length_hex_two 0xCB
  rw [toList_display_page, List.length_cons, List.length_cons, List.length_append, length_hex_two,
    hpage]

/-- The printed form of an opcode of the second page begins with that of the page byte alone. -/
theorem eq_pageByte_of_prefix {b b' : UInt8}
    (h : (display ⟨b.toUInt16⟩).toList <+: (display ⟨0xCB00 + b'.toUInt16⟩).toList) :
    b = 0xCB := by
  rw [toList_display_lead, toList_display_page, List.cons_prefix_cons, List.cons_prefix_cons] at h
  have hpage : (Text.hex 2 0xCB).length = 2 := length_hex_two 0xCB
  have hdigits : Text.hex 2 b.toNat <+: Text.hex 2 0xCB :=
    List.prefix_of_prefix_length_le h.2.2 (List.prefix_append _ _)
      (by rw [length_hex_two, hpage])
  have hhex := hdigits.eq_of_length (by rw [length_hex_two, hpage])
  exact UInt8.toNat_inj.mp (Text.hex_injective hhex)

/-- The printed forms of opcodes are a prefix code, but for the page byte. -/
theorem eq_of_display_prefix {code code' : UInt32} (hne : ofCode code ≠ ⟨0xCB⟩)
    (h : (ofCode code).display.toList <+: (ofCode code').display.toList) :
    ofCode code = ofCode code' := by
  have hle := h.length_le
  have hsame : (ofCode code).display.toList.length = (ofCode code').display.toList.length →
      ofCode code = ofCode code' := by
    intro hlength
    exact display_injective (String.toList_inj.mp (h.eq_of_length hlength))
  rcases ofCode_cases code with ⟨b, hb⟩ | ⟨b, hb⟩ <;>
    rcases ofCode_cases code' with ⟨b', hb'⟩ | ⟨b', hb'⟩ <;> rw [hb, hb'] at h hle hsame ⊢
  · apply hsame
    rw [length_display_lead, length_display_lead]
  · obtain rfl := eq_pageByte_of_prefix h
    exact absurd hb hne
  · rw [length_display_lead, length_display_page] at hle
    omega
  · apply hsame
    rw [length_display_page, length_display_page]

end EffectiveOpcode

/-! ## Filters -/

namespace Batch

/-- A printed opcode begins a name only if it begins the opcode in the name. -/
theorem display_prefix_caseName_iff {op op' : EffectiveOpcode} {o : Option Outcome} :
    op.display.toList <+: (caseName op' o).toList ↔ op.display.toList <+: op'.display.toList := by
  constructor
  · intro h
    -- the underscore is where the opcode in the name ends, and a printed opcode has none
    have hop : ∀ c ∈ op.display.toList, (c != '_') = true :=
      fun c hc => bne_iff_ne.mpr (EffectiveOpcode.ne_underscore hc)
    obtain ⟨rest, hrest⟩ := h
    rw [← takeWhile_caseName op' o, ← hrest, List.takeWhile_append_of_pos hop]
    exact List.prefix_append _ _
  · intro h
    rw [toList_caseName]
    exact h.trans (List.prefix_append _ _)

section

variable {entries : List InstructionEntry} {options : BatchOptions} {r : Report}

/-- The printed form of an opcode selects its cases. -/
theorem select_display (h : generate entries options = .ok r) {code : UInt32}
    (hne : EffectiveOpcode.ofCode code ≠ ⟨0xCB⟩) :
    (Fixture.ofReport r).select (some (EffectiveOpcode.ofCode code).display) =
      r.cases.filter fun c => c.opcode = EffectiveOpcode.ofCode code := by
  unfold Fixture.select
  apply List.filter_congr
  intro c hc
  obtain ⟨e, -, hce⟩ := mem_casesOf_of_generate h hc
  rw [name_of_mem_casesOf hce, Bool.eq_iff_iff, List.isPrefixOf_iff_prefix,
    display_prefix_caseName_iff, decide_eq_true_eq]
  constructor
  · intro hprefix
    exact (EffectiveOpcode.eq_of_display_prefix hne hprefix).symm
  · intro hop
    rw [hop]

/-- What the names of a report are good for. -/
structure Identifies (r : Report) : Prop where
  distinct : (r.cases.map TestCase.name).Nodup
  found : ∀ c ∈ r.cases, (Fixture.ofReport r).find? c.name = some c
  /-- With the printed form of an opcode for a filter, a run is a run of the cases of this
  opcode, in their order. The page byte alone is no such filter. -/
  selected : ∀ code, EffectiveOpcode.ofCode code ≠ ⟨0xCB⟩ →
    ∀ {m : Type → Type} [Monad m] (capture : TestCase → m (Except CaptureError Queue)),
      (Fixture.ofReport r).run (some (EffectiveOpcode.ofCode code).display) capture =
        (r.cases.filter fun c => c.opcode = EffectiveOpcode.ofCode code).mapM fun c =>
          CaseResult.of c <$> capture c

/-- **Names identify cases.** No two cases of a report share a name, a case is found by its
name, and the printed form of an opcode selects the cases of this opcode. -/
theorem identifies_of_generate (h : generate entries options = .ok r) : Identifies r := by
  refine ⟨nodup_names h, fun c hc => find?_name h hc, ?_⟩
  intro code hne m _ capture
  rw [Fixture.run, select_display h hne]

end

/-- Both sides of the jump of the sample have names of their own. -/
theorem identifies_of_generate_sample :
    ∃ r, generate sample ⟨false, [0x00]⟩ = .ok r ∧
      r.cases.map TestCase.name = ["0xC2_taken", "0xC2_not_taken"] ∧ Identifies r := by
  obtain ⟨r, hr, hnames, -⟩ := generate_sample
  exact ⟨r, hr, hnames, identifies_of_generate hr⟩

end Batch

end GoldenTrace
