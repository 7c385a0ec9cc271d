import GoldenTrace.Descriptor.Encoding

/-!
# Two readings of a machine code

The bytes of a descriptor come from its machine code and its length, the
effective opcode from the machine code alone. If the bytes make a stream, both
agree on the page and on the byte that selects the instruction within it.
-/

namespace GoldenTrace

/-! ## Bytes -/

theorem bigEndian_zero (count : Nat) : bigEndian count 0 = List.replicate count 0 := by
  induction count with
  | zero => rfl
  | succ count ih =>
      rw [bigEndian, Nat.zero_div, ih, List.replicate_succ']
      rfl

/-- A number is written in more bytes than it needs with zeros in front. -/
theorem bigEndian_add (more : Nat) {count n : Nat} (h : n < Nat.pow 256 count) :
    bigEndian (more + count) n = List.replicate more 0 ++ bigEndian count n := by
  induction count generalizing n with
  | zero =>
      have hzero : n = 0 := Nat.lt_one_iff.mp h
      rw [hzero, Nat.add_zero, bigEndian_zero, bigEndian, List.append_nil]
  | succ count ih =>
      have hhigh : n / 256 < Nat.pow 256 count := Nat.div_lt_of_lt_mul (by rwa [Nat.mul_comm])
      rw [← Nat.add_assoc, bigEndian, bigEndian, ih hhigh, List.append_assoc]

/-- The number that bytes stand for, the first of them most significant. -/
def ofBigEndian (bytes : List UInt8) : Nat :=
  bytes.foldl (fun n b => 256 * n + b.toNat) 0

@[simp] theorem length_bigEndian (count n : Nat) : (bigEndian count n).length = count := by
  induction count generalizing n with
  | zero => rfl
  | succ count ih => rw [bigEndian, List.length_append, ih, List.length_singleton]

/-- The bytes of a number that fits them stand for this number. -/
theorem ofBigEndian_bigEndian {count n : Nat} (h : n < Nat.pow 256 count) :
    ofBigEndian (bigEndian count n) = n := by
  induction count generalizing n with
  | zero => exact (Nat.lt_one_iff.mp h).symm
  | succ count ih =>
      have hhigh : n / 256 < Nat.pow 256 count := Nat.div_lt_of_lt_mul (by rwa [Nat.mul_comm])
      have hlow : (UInt8.ofNat n).toNat = n % 256 := UInt8.toNat_ofNat'
      have hrest : (bigEndian count (n / 256)).foldl (fun n b => 256 * n + b.toNat) 0 = n / 256 :=
        ih hhigh
      rw [bigEndian, ofBigEndian, List.foldl_append, hrest, List.foldl_cons, List.foldl_nil, hlow]
      exact Nat.div_add_mod n 256

/-! ## Opcodes -/

namespace EffectiveOpcode

theorem onPage_ofLead (b : UInt8) : onPage ⟨b.toUInt16⟩ = false := by
  have hb := b.toNat_lt
  rw [onPage, UInt8.toNat_toUInt16, beq_eq_false_iff_ne, Nat.div_eq_of_lt hb]
  decide

theorem payload?_ofLead (b : UInt8) : payload? ⟨b.toUInt16⟩ = none := by
  rw [payload?, onPage_ofLead]
  rfl

theorem toNat_ofPage (b : UInt8) : (0xCB00 + b.toUInt16).toNat = 0xCB00 + b.toNat := by
  have hb := b.toNat_lt
  have hpage : (0xCB00 : UInt16).toNat = 0xCB00 := rfl
  rw [UInt16.toNat_add, UInt8.toNat_toUInt16, hpage, Nat.mod_eq_of_lt]
  omega

theorem onPage_ofPage (b : UInt8) : onPage ⟨0xCB00 + b.toUInt16⟩ = true := by
  have hb := b.toNat_lt
  rw [onPage, toNat_ofPage, beq_iff_eq]
  show (0xCB00 + b.toNat) / 256 = 0xCB
  omega

theorem payload?_ofPage (b : UInt8) : payload? ⟨0xCB00 + b.toUInt16⟩ = some b := by
  have hb := b.toNat_lt
  have hbyte : (0xCB00 + b.toUInt16).toUInt8 = b := by
    rw [← UInt8.toNat_inj, UInt16.toNat_toUInt8, toNat_ofPage]
    omega
  rw [payload?, onPage_ofPage, hbyte]
  rfl

end EffectiveOpcode

/-! ## Streams -/

theorem Encoding.payload?_eq_some_iff {e : Encoding} {b : UInt8} :
    e.payload? = some b ↔ ∃ rest, e = ⟨pageByte, b :: rest⟩ := by
  obtain ⟨lead, tail⟩ := e
  rw [payload?]
  split
  case isTrue hlead =>
    obtain rfl : lead = pageByte := hlead
    simp only [List.head?_eq_some_iff, mk.injEq, true_and]
  case isFalse hlead =>
    constructor
    · intro h
      cases h
    · rintro ⟨rest, h⟩
      exact absurd (congrArg Encoding.lead h) hlead

namespace Descriptor

theorem bytes?_eq_some_iff {d : Descriptor} {bs : List UInt8} :
    d.bytes? = some bs ↔ (1 ≤ d.byteLength.toNat ∧ d.byteLength.toNat ≤ 3 ∧
      d.machineCode.toNat < Nat.pow 256 d.byteLength.toNat) ∧
      bs = bigEndian d.byteLength.toNat d.machineCode.toNat := by
  rw [bytes?]
  split
  case isTrue hfits => simp only [hfits, and_self, true_and, Option.some.injEq, eq_comm]
  case isFalse hfits => simp only [hfits, false_and, reduceCtorEq]

/-- A stream is the bytes of its descriptor, and begins where the effective opcode does. -/
theorem encoding_eq_ok_iff_bytes {d : Descriptor} {e : Encoding} :
    d.encoding = .ok e ↔ d.bytes? = some e.bytes ∧ e.lead = d.effectiveOpcode.leading := by
  rw [encoding]
  split
  case h_1 lead tail htail =>
    rw [htail, Option.some.injEq, Encoding.bytes, List.cons.injEq]
    split
    case isTrue hlead =>
      constructor
      · rintro h
        cases h
        exact ⟨⟨rfl, rfl⟩, hlead⟩
      · rintro ⟨⟨rfl, rfl⟩, -⟩
        rfl
    case isFalse hlead =>
      constructor
      · rintro h
        cases h
      · rintro ⟨⟨rfl, -⟩, h⟩
        exact absurd h hlead
  case h_2 hnone =>
    constructor
    · rintro h
      cases h
    · rintro ⟨h, -⟩
      exact absurd h (hnone e.lead e.tail)

/-- A stream holds one to three bytes that the machine code fits, and begins
where the effective opcode does. -/
theorem encoding_eq_ok_iff {d : Descriptor} {e : Encoding} :
    d.encoding = .ok e ↔ (1 ≤ d.byteLength.toNat ∧ d.byteLength.toNat ≤ 3 ∧
      d.machineCode.toNat < Nat.pow 256 d.byteLength.toNat) ∧
      e.bytes = bigEndian d.byteLength.toNat d.machineCode.toNat ∧
      e.lead = d.effectiveOpcode.leading := by
  rw [encoding_eq_ok_iff_bytes, bytes?_eq_some_iff, and_assoc]

/-- A stream is the bytes of its descriptor, and these stand for the machine
code. -/
theorem bytes_of_encoding {d : Descriptor} {e : Encoding} (h : d.encoding = .ok e) :
    d.bytes? = some e.bytes ∧ e.bytes.length = d.byteLength.toNat ∧
      ofBigEndian e.bytes = d.machineCode.toNat := by
  obtain ⟨hfits, hbytes, -⟩ := encoding_eq_ok_iff.mp h
  rw [bytes?, hbytes]
  exact ⟨if_pos hfits, length_bigEndian _ _, ofBigEndian_bigEndian hfits.2.2⟩

/-- Where the first byte is not zero, the machine code has no other leading byte. -/
theorem dropWhile_of_bytes? {d : Descriptor} {lead : UInt8} {tail : List UInt8}
    (h : d.bytes? = some (lead :: tail)) (hlead : lead ≠ 0) :
    (bigEndian 4 d.machineCode.toNat).dropWhile (· == 0) = lead :: tail := by
  obtain ⟨⟨-, hle, hfits⟩, hbytes⟩ := bytes?_eq_some_iff.mp h
  obtain ⟨more, hmore⟩ : ∃ more, 4 = more + d.byteLength.toNat :=
    ⟨4 - d.byteLength.toNat, by omega⟩
  rw [hmore, bigEndian_add more hfits, ← hbytes, List.dropWhile_append_of_pos (by simp),
    List.dropWhile_cons_of_neg (by simpa using hlead)]

/-- Bytes that begin with the page byte and go on are a stream. -/
theorem encoding_of_page {d : Descriptor} {second : UInt8} {rest : List UInt8}
    (h : d.bytes? = some (pageByte :: second :: rest)) :
    d.encoding = .ok ⟨pageByte, second :: rest⟩ := by
  have hskip := dropWhile_of_bytes? h (by decide)
  have hopcode : d.effectiveOpcode = ⟨0xCB00 + second.toUInt16⟩ := by
    rw [effectiveOpcode, EffectiveOpcode.ofCode, hskip]
    rfl
  refine encoding_eq_ok_iff_bytes.mpr ⟨h, ?_⟩
  rw [hopcode, EffectiveOpcode.leading, if_pos (EffectiveOpcode.onPage_ofPage second)]

/-- The byte behind the page byte is the one the effective opcode ends in. -/
theorem payload?_of_encoding {d : Descriptor} {e : Encoding} (h : d.encoding = .ok e) :
    e.payload? = d.effectiveOpcode.payload? := by
  obtain ⟨hbytes, hlead⟩ := encoding_eq_ok_iff_bytes.mp h
  by_cases hzero : e.lead = 0
  · -- an opcode of the second page would begin with the page byte
    have hpage : d.effectiveOpcode.onPage = false := by
      rw [Bool.eq_false_iff]
      intro hpage
      rw [EffectiveOpcode.leading, hpage, hzero] at hlead
      cases hlead
    rw [Encoding.payload?, EffectiveOpcode.payload?, hpage, hzero]
    rfl
  · rw [Encoding.payload?, effectiveOpcode, EffectiveOpcode.ofCode,
      dropWhile_of_bytes? hbytes hzero]
    cases e.tail with
    | nil =>
        rw [EffectiveOpcode.payload?_ofLead]
        split <;> rfl
    | cons next rest =>
        by_cases hpage : e.lead = pageByte
        · simp only [hpage, if_true, EffectiveOpcode.payload?_ofPage, List.head?_cons]
        · simp only [hpage, if_false, EffectiveOpcode.payload?_ofLead]

theorem payload?_isSome_of_encoding {d : Descriptor} {e : Encoding} (h : d.encoding = .ok e) :
    e.payload?.isSome = d.effectiveOpcode.onPage := by
  rw [payload?_of_encoding h, EffectiveOpcode.payload?]
  cases d.effectiveOpcode.onPage <;> rfl

end Descriptor

end GoldenTrace
