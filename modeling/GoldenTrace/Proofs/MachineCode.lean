import GoldenTrace.Proofs.Descriptor.Encoding
import GoldenTrace.Proofs.Refusals
import Mathlib.Data.List.Induction
import Mathlib.Data.List.TakeWhile

/-!
# Machine codes by their bytes

A machine code is read in two ways: by a declared number of bytes, and from the first byte
that is not zero. Both are said here of the bytes that are left of a code without the zeros
in front of it. These bytes stand for the code, and one byte more behind the code is one
byte more behind them.
-/

namespace GoldenTrace

/-! ## Bytes that stand for numbers -/

theorem ofBigEndian_concat (bytes : List UInt8) (b : UInt8) :
    ofBigEndian (bytes ++ [b]) = 256 * ofBigEndian bytes + b.toNat := by
  rw [ofBigEndian, List.foldl_append]
  rfl

theorem ofBigEndian_lt (bytes : List UInt8) : ofBigEndian bytes < Nat.pow 256 bytes.length := by
  induction bytes using List.reverseRecOn with
  | nil => exact Nat.one_pos
  | append_singleton bytes b ih =>
      have hb := b.toNat_lt
      rw [ofBigEndian_concat, List.length_append, List.length_singleton]
      show _ < Nat.pow 256 bytes.length * 256
      omega

/-- Bytes are those of the number they stand for. -/
theorem bigEndian_ofBigEndian (bytes : List UInt8) :
    bigEndian bytes.length (ofBigEndian bytes) = bytes := by
  induction bytes using List.reverseRecOn with
  | nil => rfl
  | append_singleton bytes b ih =>
      have hb := b.toNat_lt
      have hlow : UInt8.ofNat (256 * ofBigEndian bytes + b.toNat) = b := by
        rw [← UInt8.toNat_inj, UInt8.toNat_ofNat']
        omega
      have hhigh : (256 * ofBigEndian bytes + b.toNat) / 256 = ofBigEndian bytes := by omega
      rw [ofBigEndian_concat, List.length_append, List.length_singleton, bigEndian, hlow, hhigh, ih]

theorem ofBigEndian_zero_cons (bytes : List UInt8) :
    ofBigEndian (0 :: bytes) = ofBigEndian bytes :=
  rfl

theorem ofBigEndian_dropWhile (bytes : List UInt8) :
    ofBigEndian (bytes.dropWhile (· == 0)) = ofBigEndian bytes := by
  induction bytes with
  | nil => rfl
  | cons b bytes ih =>
      by_cases hb : b = 0
      · subst hb
        rw [List.dropWhile_cons_of_pos rfl, ih, ofBigEndian_zero_cons]
      · rw [List.dropWhile_cons_of_neg (by simpa using hb)]

/-- The first of some bytes is zero if their number needs a byte less. -/
theorem lead_eq_zero_iff (lead : UInt8) (tail : List UInt8) :
    lead = 0 ↔ ofBigEndian (lead :: tail) < Nat.pow 256 tail.length := by
  constructor
  · rintro rfl
    rw [ofBigEndian_zero_cons]
    exact ofBigEndian_lt tail
  · intro h
    have hbytes := bigEndian_ofBigEndian (lead :: tail)
    rw [List.length_cons, Nat.add_comm, bigEndian_add 1 h] at hbytes
    exact (List.cons.inj hbytes).1.symm

/-! ## Bytes behind leading zeros -/

/-- The bytes of a machine code from the first that is not zero. -/
def significant (n : Nat) : List UInt8 :=
  (bigEndian 4 n).dropWhile (· == 0)

theorem significant_ofBigEndian {bytes : List UInt8} (h : bytes.length ≤ 4) :
    significant (ofBigEndian bytes) = bytes.dropWhile (· == 0) := by
  obtain ⟨more, hmore⟩ : ∃ more, 4 = more + bytes.length := ⟨4 - bytes.length, by omega⟩
  rw [significant, hmore, bigEndian_add more (ofBigEndian_lt bytes), bigEndian_ofBigEndian,
    List.dropWhile_append_of_pos (by simp)]

theorem ofBigEndian_significant {n : Nat} (h : n < Nat.pow 256 4) :
    ofBigEndian (significant n) = n := by
  rw [significant, ofBigEndian_dropWhile, ofBigEndian_bigEndian h]

theorem ne_zero_of_significant {n : Nat} {lead : UInt8} {rest : List UInt8}
    (h : significant n = lead :: rest) : lead ≠ 0 := by
  have hhead := List.head?_dropWhile_not (· == 0) (bigEndian 4 n)
  rw [← significant, h] at hhead
  simpa using hhead

theorem significant_zero : significant 0 = [] := rfl

/-- Only zero is without significant bytes. -/
theorem significant_eq_nil_iff {n : Nat} (h : n < Nat.pow 256 4) : significant n = [] ↔ n = 0 := by
  constructor
  · intro hnil
    rw [← ofBigEndian_significant h, hnil]
    rfl
  · rintro rfl
    exact significant_zero

theorem length_significant_le {count n : Nat} (hcount : count ≤ 4) (h : n < Nat.pow 256 count) :
    (significant n).length ≤ count := by
  have hbytes : significant n = (bigEndian count n).dropWhile (· == 0) := by
    rw [← significant_ofBigEndian (by rwa [length_bigEndian]), ofBigEndian_bigEndian h]
  rw [hbytes]
  exact (List.length_dropWhile_le _ _).trans_eq (length_bigEndian count n)

/-- A byte behind a code that is not zero is a byte behind its significant ones. -/
theorem significant_push {n : Nat} (hpos : 0 < n) (h : n < Nat.pow 256 3) (b : UInt8) :
    significant (n * 256 + b.toNat) = significant n ++ [b] := by
  have hwide : n < Nat.pow 256 4 := Nat.lt_trans h (by decide)
  have hlength : (significant n).length ≤ 3 := length_significant_le (by decide) h
  have hcode : n * 256 + b.toNat = ofBigEndian (significant n ++ [b]) := by
    rw [ofBigEndian_concat, ofBigEndian_significant hwide, Nat.mul_comm]
  have hroom : (significant n ++ [b]).length ≤ 4 := by
    rw [List.length_append, List.length_singleton]
    omega
  rw [hcode, significant_ofBigEndian hroom]
  -- the first byte stays the one that is not zero
  cases hn : significant n with
  | nil => exact absurd ((significant_eq_nil_iff hwide).mp hn) (Nat.ne_of_gt hpos)
  | cons lead rest =>
      have hlead := ne_zero_of_significant hn
      rw [List.cons_append, List.dropWhile_cons_of_neg (by simpa using hlead)]

theorem significant_toNat {b : UInt8} (hb : b ≠ 0) : significant b.toNat = [b] := by
  have hcode : b.toNat = ofBigEndian [b] := by simp [ofBigEndian]
  rw [hcode, significant_ofBigEndian (by simp), List.dropWhile_cons_of_neg (by simpa using hb)]

/-! ## Effective opcodes by significant bytes -/

namespace EffectiveOpcode

theorem toNat_lt_pow (code : UInt32) : code.toNat < Nat.pow 256 4 :=
  code.toNat_lt

theorem leading_ofLead (b : UInt8) : leading ⟨b.toUInt16⟩ = b := by
  rw [leading, onPage_ofLead]
  exact UInt8.toUInt8_toUInt16 b

theorem ofCode_of_page {code : UInt32} {second : UInt8} {rest : List UInt8}
    (h : significant code.toNat = pageByte :: second :: rest) :
    ofCode code = ⟨0xCB00 + second.toUInt16⟩ := by
  rw [ofCode, ← significant, h]
  rfl

theorem ofCode_of_lead {code : UInt32} {lead : UInt8} {rest : List UInt8}
    (h : significant code.toNat = lead :: rest) (hpage : lead = pageByte → rest = []) :
    ofCode code = ⟨lead.toUInt16⟩ := by
  rw [ofCode, ← significant, h]
  cases rest with
  | nil => rfl
  | cons second rest =>
      have hlead : lead ≠ pageByte := by
        intro hlead
        cases hpage hlead
      simp only [if_neg hlead]

/-- An effective opcode is a byte, or a byte of the second page. -/
theorem ofCode_cases (code : UInt32) :
    (∃ b : UInt8, ofCode code = ⟨b.toUInt16⟩) ∨ ∃ b : UInt8, ofCode code = ⟨0xCB00 + b.toUInt16⟩ := by
  rcases hbytes : significant code.toNat with _ | ⟨lead, rest⟩
  · refine Or.inl ⟨0, ?_⟩
    rw [ofCode, ← significant, hbytes]
    rfl
  · by_cases hpage : lead = pageByte → rest = []
    · exact Or.inl ⟨lead, ofCode_of_lead hbytes hpage⟩
    · obtain ⟨rfl, hrest⟩ := Classical.not_imp.mp hpage
      obtain ⟨second, rest, rfl⟩ := List.exists_cons_of_ne_nil hrest
      exact Or.inr ⟨second, ofCode_of_page hbytes⟩

/-- What an opcode begins with is the first significant byte. -/
theorem leading_ofCode (code : UInt32) :
    (ofCode code).leading = (significant code.toNat).headD 0 := by
  rcases hbytes : significant code.toNat with _ | ⟨lead, rest⟩
  · rw [ofCode, ← significant, hbytes]
    rfl
  · by_cases hpage : lead = pageByte → rest = []
    · rw [ofCode_of_lead hbytes hpage, leading_ofLead]
      rfl
    · obtain ⟨rfl, hrest⟩ := Classical.not_imp.mp hpage
      obtain ⟨second, rest, rfl⟩ := List.exists_cons_of_ne_nil hrest
      rw [ofCode_of_page hbytes, leading, onPage_ofPage]
      rfl

theorem ofCode_byte {code : UInt32} {b : UInt8} (h : code.toNat = b.toNat) :
    ofCode code = ⟨b.toUInt16⟩ := by
  by_cases hb : b = 0
  · subst hb
    rw [ofCode, ← significant, h]
    rfl
  · exact ofCode_of_lead (h ▸ significant_toNat hb) (fun _ => rfl)

theorem ofCode_page {code : UInt32} {b : UInt8} (h : code.toNat = 0xCB00 + b.toNat) :
    ofCode code = ⟨0xCB00 + b.toUInt16⟩ := by
  have hbytes : significant code.toNat = [pageByte, b] := by
    rw [h]
    exact significant_push (n := 0xCB) (by decide) (by decide) b
  exact ofCode_of_page hbytes

/-- The opcode of an opcode is this opcode. -/
theorem ofCode_value (code : UInt32) : ofCode (ofCode code).value.toUInt32 = ofCode code := by
  rcases ofCode_cases code with ⟨b, hb⟩ | ⟨b, hb⟩
  · rw [hb]
    exact ofCode_byte rfl
  · rw [hb]
    exact ofCode_page (by rw [UInt16.toNat_toUInt32, toNat_ofPage])

theorem value_ofCode_bounds (code : UInt32) :
    (ofCode code).value.toNat ≤ 0xFF ∨
      0xCB00 ≤ (ofCode code).value.toNat ∧ (ofCode code).value.toNat ≤ 0xCBFF := by
  rcases ofCode_cases code with ⟨b, hb⟩ | ⟨b, hb⟩
  · have hlt := b.toNat_lt
    rw [hb, UInt8.toNat_toUInt16]
    omega
  · have hlt := b.toNat_lt
    rw [hb, toNat_ofPage]
    omega

theorem toNat_push {code : UInt32} (h : code.toNat < 0x1000000) (b : UInt8) :
    (code * 256 + b.toUInt32).toNat = code.toNat * 256 + b.toNat := by
  have hb := b.toNat_lt
  have hfactor : (256 : UInt32).toNat = 256 := rfl
  rw [UInt32.toNat_add, UInt32.toNat_mul, UInt8.toNat_toUInt32, hfactor,
    Nat.mod_eq_of_lt (a := code.toNat * 256) (by omega), Nat.mod_eq_of_lt (by omega)]

/-- A byte behind a code does not change the opcode, unless the code is the page byte alone. -/
theorem ofCode_push {code : UInt32} (hpos : 0 < code.toNat) (hlt : code.toNat < 0x1000000)
    (hpage : code ≠ 0xCB) (b : UInt8) : ofCode (code * 256 + b.toUInt32) = ofCode code := by
  have hpush : significant (code * 256 + b.toUInt32).toNat = significant code.toNat ++ [b] := by
    rw [toNat_push hlt]
    exact significant_push hpos hlt b
  rcases hbytes : significant code.toNat with _ | ⟨lead, rest⟩
  · have hzero := (significant_eq_nil_iff (toNat_lt_pow code)).mp hbytes
    omega
  rw [hbytes, List.cons_append] at hpush
  by_cases hlead : lead = pageByte
  · -- the page byte is not alone, so the byte of the page is there already
    subst hlead
    rcases rest with _ | ⟨second, rest⟩
    · have hcode := ofBigEndian_significant (toNat_lt_pow code)
      rw [hbytes] at hcode
      exact absurd (UInt32.toNat_inj.mp hcode.symm) hpage
    · rw [ofCode_of_page hbytes]
      exact ofCode_of_page hpush
  · rw [ofCode_of_lead hbytes (absurd · hlead), ofCode_of_lead hpush (absurd · hlead)]

/-- **Effective opcodes are canonical.** An opcode is its own opcode and lies on one of the two
pages, and bytes behind a code leave the opcode of the code alone. -/
theorem canonical_ofCode (code : UInt32) :
    ofCode (ofCode code).value.toUInt32 = ofCode code ∧
      ((ofCode code).value.toNat ≤ 0xFF ∨
        0xCB00 ≤ (ofCode code).value.toNat ∧ (ofCode code).value.toNat ≤ 0xCBFF) ∧
      ∀ b : UInt8, 0 < code.toNat → code.toNat < 0x1000000 → code ≠ 0xCB →
        ofCode (code * 256 + b.toUInt32) = ofCode code :=
  ⟨ofCode_value code, value_ofCode_bounds code,
    fun b hpos hlt hpage => ofCode_push hpos hlt hpage b⟩

/-- The jump `C2 CD` with its address complete, and `CB 00`, whose second byte is zero. -/
theorem canonical_ofCode_samples :
    ofCode (0xC2CD * 256 + (0xAB : UInt8).toUInt32) = ofCode 0xC2CD ∧
      ofCode (0xCB00 * 256 + (0x40 : UInt8).toUInt32) = ofCode 0xCB00 :=
  ⟨(canonical_ofCode 0xC2CD).2.2 0xAB (by decide) (by decide) (by decide),
    (canonical_ofCode 0xCB00).2.2 0x40 (by decide) (by decide) (by decide)⟩

/-- The page byte alone is the exception. -/
example : ofCode (0xCB * 256 + (0x40 : UInt8).toUInt32) ≠ ofCode 0xCB := by decide

end EffectiveOpcode

/-! ## Both readings of a descriptor -/

namespace Descriptor

/-- The machine code takes exactly the declared bytes: it fits them, and unless it is zero it
does not fit fewer. -/
structure Fits (d : Descriptor) : Prop where
  one_le : 1 ≤ d.byteLength.toNat
  le_three : d.byteLength.toNat ≤ 3
  upper : d.machineCode.toNat < Nat.pow 256 d.byteLength.toNat
  lower : d.machineCode = 0 ∨ Nat.pow 256 (d.byteLength.toNat - 1) ≤ d.machineCode.toNat

/-- What the bytes of a descriptor and its effective opcode have to do with each other. -/
structure Reads (d : Descriptor) (bytes : List UInt8) : Prop where
  length : bytes.length = d.byteLength.toNat
  /-- The bytes, most significant first, make up the machine code. -/
  code : ofBigEndian bytes = d.machineCode.toNat
  /-- With a byte behind the page byte, the opcode is of the second page. -/
  page : ∀ second rest, bytes = 0xCB :: second :: rest →
    d.effectiveOpcode.value.toNat = 0xCB00 + second.toNat
  /-- Otherwise it is the first byte. -/
  first : ∀ lead rest, bytes = lead :: rest → (lead ≠ 0xCB ∨ d.byteLength.toNat < 2) →
    d.effectiveOpcode.value.toNat = lead.toNat

section

variable {d : Descriptor} {lead : UInt8} {tail : List UInt8}

theorem code_of_bytes? (h : d.bytes? = some (lead :: tail)) :
    ofBigEndian (lead :: tail) = d.machineCode.toNat ∧
      tail.length = d.byteLength.toNat - 1 ∧ (lead :: tail).length ≤ 4 := by
  obtain ⟨⟨-, hle, hupper⟩, hbytes⟩ := bytes?_eq_some_iff.mp h
  have hlength : tail.length + 1 = d.byteLength.toNat := by
    rw [← List.length_cons (a := lead), hbytes, length_bigEndian]
  refine ⟨by rw [hbytes, ofBigEndian_bigEndian hupper], by omega, ?_⟩
  rw [List.length_cons]
  omega

theorem lower_iff_of_bytes? (h : d.bytes? = some (lead :: tail)) :
    (d.machineCode = 0 ∨ Nat.pow 256 (d.byteLength.toNat - 1) ≤ d.machineCode.toNat) ↔
      (lead = 0 → d.machineCode = 0) := by
  obtain ⟨hcode, hlength, -⟩ := code_of_bytes? h
  rw [lead_eq_zero_iff lead tail, hcode, hlength]
  by_cases hzero : d.machineCode = 0
  · simp [hzero]
  · simp [hzero]

/-- The bytes begin where the opcode does if the first of them is significant, or if none is. -/
theorem lead_eq_leading_iff (h : d.bytes? = some (lead :: tail)) :
    lead = d.effectiveOpcode.leading ↔ (lead = 0 → d.machineCode = 0) := by
  obtain ⟨hcode, -, hlength⟩ := code_of_bytes? h
  rw [effectiveOpcode, EffectiveOpcode.leading_ofCode]
  by_cases hlead : lead = 0
  · subst hlead
    rcases hbytes : significant d.machineCode.toNat with _ | ⟨first, rest⟩
    · have hzero := (significant_eq_nil_iff (EffectiveOpcode.toNat_lt_pow _)).mp hbytes
      have hzero : d.machineCode = 0 := UInt32.toNat_inj.mp hzero
      simp [hzero]
    · have hfirst := ne_zero_of_significant hbytes
      have hne : d.machineCode ≠ 0 := by
        intro hzero
        rw [hzero] at hbytes
        cases hbytes
      simp [hne, hfirst.symm]
  · have hbytes := significant_ofBigEndian hlength
    rw [hcode, List.dropWhile_cons_of_neg (by simpa using hlead)] at hbytes
    simp [hbytes, hlead]

theorem Fits.exists_bytes (h : d.Fits) : ∃ lead tail, d.bytes? = some (lead :: tail) := by
  have hbytes := bytes?_eq_some_iff.mpr ⟨⟨h.one_le, h.le_three, h.upper⟩, rfl⟩
  have hne : bigEndian d.byteLength.toNat d.machineCode.toNat ≠ [] := by
    intro hnil
    have hlength := length_bigEndian d.byteLength.toNat d.machineCode.toNat
    have hpos := h.one_le
    rw [hnil, List.length_nil] at hlength
    omega
  obtain ⟨lead, tail, hcons⟩ := List.exists_cons_of_ne_nil hne
  exact ⟨lead, tail, hcons ▸ hbytes⟩

/-- The two readings of a code meet exactly where the code takes the declared bytes. -/
theorem exists_encoding_iff : (∃ e, d.encoding = .ok e) ↔ d.Fits := by
  constructor
  · rintro ⟨e, he⟩
    obtain ⟨hbytes, hlead⟩ := encoding_eq_ok_iff_bytes.mp he
    obtain ⟨⟨hone, hthree, hupper⟩, -⟩ := bytes?_eq_some_iff.mp hbytes
    exact ⟨hone, hthree, hupper,
      (lower_iff_of_bytes? hbytes).mpr ((lead_eq_leading_iff hbytes).mp hlead)⟩
  · intro h
    obtain ⟨lead, tail, hbytes⟩ := h.exists_bytes
    have hlead := (lead_eq_leading_iff hbytes).mpr ((lower_iff_of_bytes? hbytes).mp h.lower)
    exact ⟨⟨lead, tail⟩, encoding_eq_ok_iff_bytes.mpr ⟨hbytes, hlead⟩⟩

theorem Fits.reads (h : d.Fits) (hbytes : d.bytes? = some (lead :: tail)) :
    d.Reads (lead :: tail) := by
  obtain ⟨hcode, htail, hlength⟩ := code_of_bytes? hbytes
  have hone := h.one_le
  have hskip := significant_ofBigEndian hlength
  rw [hcode] at hskip
  refine ⟨by rw [List.length_cons]; omega, hcode, ?page, ?first⟩
  case page =>
    rintro second rest heq
    rw [heq] at hskip
    rw [effectiveOpcode, EffectiveOpcode.ofCode_of_page hskip, EffectiveOpcode.toNat_ofPage]
  case first =>
    rintro lead rest heq hfirst
    cases heq
    by_cases hlead : lead = 0
    · have hzero := (lower_iff_of_bytes? hbytes).mp h.lower hlead
      rw [effectiveOpcode, hzero, hlead]
      rfl
    · rw [List.dropWhile_cons_of_neg (by simpa using hlead)] at hskip
      have halone : lead = pageByte → tail = [] := by
        intro hpage
        have hshort := hfirst.resolve_left (absurd hpage ·)
        exact List.eq_nil_of_length_eq_zero (by omega)
      rw [effectiveOpcode, EffectiveOpcode.ofCode_of_lead hskip halone, UInt8.toNat_toUInt16]

end

/-- **The two readings agree.** Assembly accepts the bytes of a descriptor exactly if the
machine code takes the declared number of them, and then they tell the effective opcode. -/
theorem readings_agree (d : Descriptor) :
    ((∀ reason, d.assemble ≠ .error (.malformed (.encoding reason))) ↔ d.Fits) ∧
      (d.Fits → ∃ bytes, d.bytes? = some bytes ∧ d.Reads bytes) := by
  constructor
  · rw [← exists_encoding_iff]
    simp only [ne_eq, assemble_eq_encodingError_iff]
    cases d.encoding with
    | ok e => simp
    | error reason => simp
  · intro h
    obtain ⟨lead, tail, hbytes⟩ := h.exists_bytes
    exact ⟨lead :: tail, hbytes, h.reads hbytes⟩

/-- The rotation `RLC B`, whose second byte is zero. -/
def zeroPayloadSample : Descriptor :=
  ⟨0xCB00, 2, 2, .rotate .rlc (some (.reg8 .b))⟩

/-- Its opcode is of the second page, though its payload is zero. -/
theorem readings_agree_zeroPayload :
    zeroPayloadSample.Fits ∧ zeroPayloadSample.bytes? = some [0xCB, 0x00] ∧
      zeroPayloadSample.Reads [0xCB, 0x00] := by
  have hfits : zeroPayloadSample.Fits := ⟨by decide, by decide, by decide, Or.inr (by decide)⟩
  obtain ⟨bytes, hbytes, hreads⟩ := (readings_agree zeroPayloadSample).2 hfits
  obtain rfl : bytes = [0xCB, 0x00] := Option.some.inj (hbytes.symm.trans (by decide))
  exact ⟨hfits, hbytes, hreads⟩

/-- With a byte declared too many, it is not where its opcode begins. -/
example : (⟨0xCB00, 3, 2, .rotate .rlc (some (.reg8 .b))⟩ : Descriptor).encoding =
    .error (.lead 0) := by decide

end Descriptor

end GoldenTrace
