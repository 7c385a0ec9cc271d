import GoldenTrace.Proofs.Assembly
import GoldenTrace.Proofs.Command.Text
import Mathlib.Data.Nat.Digits.Defs

/-!
# The grammar of command lines

A line is a command exactly if its words are one of a few phrases: a keyword alone, or
one followed by a target and a number. The case of letters makes no difference to
keywords and names. A number means what its digits say in its base, and is too large
rather than cut off.
-/

namespace GoldenTrace

namespace Text

/-! ## Digits -/

/-- The digits, in order of their values. -/
def alphabet : List Char :=
  "0123456789ABCDEF".toList

/-- A digit of base `b`, in either case, and its value. -/
def IsDigit (b : Nat) (c : Char) (d : Nat) : Prop :=
  d < b ∧ alphabet[d]? = some c.toUpper

/-- A nonempty run of digits of base `b`, and the number it stands for. -/
def Digits (b : Nat) (cs : List Char) (n : Nat) : Prop :=
  cs ≠ [] ∧ ∃ ds, List.Forall₂ (IsDigit b) cs ds ∧ Nat.ofDigits b ds.reverse = n

/-- A run of digits, perhaps after a plus sign. -/
inductive Numeral (b : Nat) : List Char → Nat → Prop where
  | unsigned {cs : List Char} {n : Nat} : Digits b cs n → Numeral b cs n
  | plus {cs : List Char} {n : Nat} : Digits b cs n → Numeral b ('+' :: cs) n

theorem toNat_toUpper (c : Char) :
    c.toUpper.toNat = if 97 ≤ c.toNat ∧ c.toNat ≤ 122 then c.toNat - 32 else c.toNat := by
  have hbounds : ('a'.val ≤ c.val ∧ c.val ≤ 'z'.val) ↔ 97 ≤ c.toNat ∧ c.toNat ≤ 122 := .rfl
  by_cases h : 97 ≤ c.toNat ∧ c.toNat ≤ 122
  · have hupper : c.toUpper = _ := dif_pos (hbounds.mpr h)
    rw [if_pos h, hupper]
    show (c.val + ('A'.val - 'a'.val)).toNat = c.toNat - 32
    rw [UInt32.toNat_add]
    show (c.toNat + 4294967264) % 4294967296 = c.toNat - 32
    omega
  · have hupper : c.toUpper = c := dif_neg (hbounds.not.mpr h)
    rw [if_neg h, hupper]

theorem digitValue?_eq_some_iff {c : Char} {d : Nat} :
    digitValue? c = some d ↔
      d < 10 ∧ c.toNat = 48 + d ∨ 10 ≤ d ∧ d < 36 ∧ (c.toNat = 55 + d ∨ c.toNat = 87 + d) := by
  have hnumeric : ('0' ≤ c ∧ c ≤ '9') ↔ 48 ≤ c.toNat ∧ c.toNat ≤ 57 := .rfl
  have hupper : ('A' ≤ c ∧ c ≤ 'Z') ↔ 65 ≤ c.toNat ∧ c.toNat ≤ 90 := .rfl
  have hlower : ('a' ≤ c ∧ c ≤ 'z') ↔ 97 ≤ c.toNat ∧ c.toNat ≤ 122 := .rfl
  simp only [digitValue?, hnumeric, hupper, hlower]
  split_ifs <;> simp <;> omega

theorem alphabet_eq_some_iff {d : Nat} (hd : d < 16) {c : Char} :
    alphabet[d]? = some c ↔ c.toNat = if d < 10 then 48 + d else 55 + d := by
  have hdigits : ∀ d < 16, alphabet[d]? = some (digit d) := by decide
  have hvalues : ∀ d < 16, (digit d).toNat = if d < 10 then 48 + d else 55 + d := by decide
  rw [hdigits d hd, Option.some_inj, ← Char.toNat_inj, hvalues d hd]
  exact eq_comm

theorem isDigit_iff {b : Nat} (hb : b ≤ 16) {c : Char} {d : Nat} :
    IsDigit b c d ↔ digitValue? c = some d ∧ d < b := by
  rw [IsDigit, and_comm, digitValue?_eq_some_iff]
  refine and_congr_left fun hd => ?_
  rw [alphabet_eq_some_iff (by omega), toNat_toUpper]
  split_ifs <;> omega

/-! ## Numerals -/

section

variable {b : Nat} (hb : b ≤ 16) {cs : List Char} {n : Nat}

include hb

theorem accumulate_cons_eq_some_iff {acc : Nat} {c : Char} :
    accumulate b acc (c :: cs) = some n ↔
      ∃ d, IsDigit b c d ∧ accumulate b (d + b * acc) cs = some n := by
  simp only [isDigit_iff hb]
  rw [accumulate]
  constructor
  · intro h
    cases hd : digitValue? c with
    | none => simp [hd] at h
    | some d =>
        simp only [hd] at h
        by_cases hlt : d < b
        · rw [if_pos hlt, Nat.add_comm, Nat.mul_comm] at h
          exact ⟨d, ⟨rfl, hlt⟩, h⟩
        · rw [if_neg hlt] at h
          cases h
  · rintro ⟨d, ⟨hd, hlt⟩, h⟩
    simp only [hd]
    rw [if_pos hlt, Nat.add_comm, Nat.mul_comm]
    exact h

/-- The value so far is carried along the run, so the induction is for all of them. -/
theorem accumulate_eq_some_iff (acc : Nat) :
    accumulate b acc cs = some n ↔
      ∃ ds, List.Forall₂ (IsDigit b) cs ds ∧ ds.foldl (fun n d => d + b * n) acc = n := by
  induction cs generalizing acc with
  | nil =>
      rw [accumulate, Option.some_inj]
      constructor
      · intro h
        exact ⟨[], .nil, h⟩
      · rintro ⟨ds, hds, h⟩
        cases hds
        exact h
  | cons c cs ih =>
      rw [accumulate_cons_eq_some_iff hb]
      constructor
      · rintro ⟨d, hd, h⟩
        obtain ⟨ds, hds, hn⟩ := (ih _).mp h
        exact ⟨d :: ds, .cons hd hds, hn⟩
      · rintro ⟨ds, hds, hn⟩
        cases hds with
        | cons hd hds => exact ⟨_, hd, (ih _).mpr ⟨_, hds, hn⟩⟩

theorem readDigits_eq_some_iff : readDigits b cs = some n ↔ Digits b cs n := by
  by_cases hne : cs = []
  · subst hne
    simp [readDigits, Digits]
  · rw [readDigits_of_ne_nil hne, accumulate_eq_some_iff hb]
    simp only [Digits, Nat.ofDigits_eq_foldr, List.foldr_reverse]
    exact (and_iff_right hne).symm

theorem not_digits_plus : ¬ Digits b ('+' :: cs) n := by
  rintro ⟨-, ds, hds, -⟩
  cases hds with
  | cons hd _ => cases ((isDigit_iff hb).mp hd).1

theorem readNumeral_eq_some_iff : readNumeral b cs = some n ↔ Numeral b cs n := by
  rw [readNumeral.eq_def]
  split
  case h_1 cs =>
      rw [readDigits_eq_some_iff hb]
      constructor
      · exact .plus
      · rintro (h | h)
        · exact absurd h (not_digits_plus hb)
        · exact h
  case h_2 hplus =>
      rw [readDigits_eq_some_iff hb]
      constructor
      · exact .unsigned
      · rintro (h | h)
        · exact h
        · exact absurd rfl (hplus _)

end

/-- The base of a numeral is ten, or sixteen after the mark `0x` in either case. -/
inductive Literal : List Char → Nat → Prop where
  | decimal {cs : List Char} {n : Nat} : Numeral 10 cs n → Literal cs n
  | hexadecimal {x : Char} {cs : List Char} {n : Nat} :
      x = 'x' ∨ x = 'X' → Numeral 16 cs n → Literal ('0' :: x :: cs) n

theorem afterHexMark_eq_some_iff {word cs : List Char} :
    afterHexMark word = some cs ↔ ∃ x, (x = 'x' ∨ x = 'X') ∧ word = '0' :: x :: cs := by
  constructor
  · intro h
    rw [afterHexMark.eq_def] at h
    split at h
    · cases h
      exact ⟨'x', .inl rfl, rfl⟩
    · cases h
      exact ⟨'X', .inr rfl, rfl⟩
    · cases h
  · rintro ⟨x, rfl | rfl, rfl⟩ <;> rfl

/-- The mark is no part of a decimal numeral. -/
theorem not_numeral_hexMark {x : Char} (hx : x = 'x' ∨ x = 'X') {cs : List Char} {n : Nat} :
    ¬ Numeral 10 ('0' :: x :: cs) n := by
  rintro (⟨-, ds, hds, -⟩ | h)
  cases hds with
  | cons _ hds =>
      cases hds with
      | cons hd _ =>
          obtain ⟨hvalue, hlt⟩ := (isDigit_iff (by decide)).mp hd
          rcases hx with rfl | rfl
          · cases hvalue
            exact absurd hlt (by decide)
          · cases hvalue
            exact absurd hlt (by decide)

theorem literal_iff_of_mark {word cs : List Char} {n : Nat} (h : afterHexMark word = some cs) :
    Literal word n ↔ readNumeral 16 cs = some n := by
  rw [readNumeral_eq_some_iff (by decide)]
  obtain ⟨x, hx, rfl⟩ := afterHexMark_eq_some_iff.mp h
  constructor
  · rintro (hdecimal | ⟨_, hhex⟩)
    · exact absurd hdecimal (not_numeral_hexMark hx)
    · exact hhex
  · exact .hexadecimal hx

theorem literal_iff_of_no_mark {word : List Char} {n : Nat} (h : afterHexMark word = none) :
    Literal word n ↔ readNumeral 10 word = some n := by
  rw [readNumeral_eq_some_iff (by decide)]
  constructor
  · rintro (hdecimal | ⟨hx, hhex⟩)
    · exact hdecimal
    · rw [afterHexMark_eq_some_iff.mpr ⟨_, hx, rfl⟩] at h
      cases h
  · exact .decimal

end Text

namespace Command

/-! ## Numbers -/

/-- A number of at most 32 bits. -/
def Number (word : Word) (n : Nat) : Prop :=
  Text.Literal word n ∧ n < 0x100000000

theorem bounded_eq_ok_iff {ε : Type} {e : ε} {bound m n : Nat} :
    (if m < bound then .ok m else .error e) = (.ok n : Except ε Nat) ↔
      some m = some n ∧ n < bound := by
  rw [Option.some_inj]
  by_cases hm : m < bound
  · rw [if_pos hm, Except.ok.injEq]
    constructor
    · rintro rfl
      exact ⟨rfl, hm⟩
    · exact And.left
  · rw [if_neg hm]
    constructor
    · intro h
      cases h
    · rintro ⟨rfl, hn⟩
      exact absurd hn hm

theorem parseNumber_eq_ok_iff {word : Word} {n : Nat} :
    parseNumber word = .ok n ↔ Number word n := by
  rw [parseNumber, Number]
  cases hmark : Text.afterHexMark word with
  | some cs =>
      rw [Text.literal_iff_of_mark hmark]
      dsimp only
      cases Text.readNumeral 16 cs with
      | none => simp
      | some m => exact bounded_eq_ok_iff
  | none =>
      rw [Text.literal_iff_of_no_mark hmark]
      dsimp only
      cases Text.readNumeral 10 word with
      | none => simp
      | some m => exact bounded_eq_ok_iff

theorem parseAddress_eq_ok_iff {word : Word} {a : UInt16} :
    parseAddress word = .ok a ↔ Number word a.toNat := by
  rw [parseAddress, bind_eq_ok_iff]
  constructor
  · rintro ⟨n, hn, h⟩
    by_cases hlt : n < 0x10000
    · rw [if_pos hlt] at h
      cases h
      rw [UInt16.toNat_ofNat', Nat.mod_eq_of_lt hlt]
      exact parseNumber_eq_ok_iff.mp hn
    · rw [if_neg hlt] at h
      cases h
  · intro h
    refine ⟨a.toNat, parseNumber_eq_ok_iff.mpr h, ?_⟩
    rw [if_pos a.toNat_lt, UInt16.ofNat_toNat]

/-! ## Names -/

/-- A word spells a name up to the case of letters. -/
def Spells (word : Word) (name : String) : Prop :=
  Text.upper word = Text.upper name.toList

theorem findAnyCase?_eq_some_iff {α : Type} [Named α]
    (hself : ∀ a : α, Named.findAnyCase? (Named.name a) = some a) {word : Word} {a : α} :
    Named.findAnyCase? (String.ofList word) = some a ↔ Spells word (Named.name a) := by
  unfold Spells
  constructor
  · intro h
    have hsame := List.find?_some h
    rw [Text.sameLetters, beq_iff_eq, String.toList_ofList] at hsame
    exact hsame.symm
  · -- the search sees the letters of the name
    intro h
    rw [← hself a]
    unfold Named.findAnyCase? Text.sameLetters
    rw [String.toList_ofList, h]

theorem named_eq_ok_iff {α : Type} [Named α] {parse : String → Except NameError α}
    (hparse : ∀ s a, parse s = .ok a ↔ Named.findAnyCase? s = some a)
    (hself : ∀ a : α, Named.findAnyCase? (Named.name a) = some a) {word : Word} {a : α} :
    named parse word = .ok a ↔ Spells word (Named.name a) := by
  rw [← findAnyCase?_eq_some_iff hself, ← hparse, named]
  cases parse (String.ofList word) <;> simp

theorem named_register8_iff {word : Word} {r : Reg8} :
    named Reg8.parse word = .ok r ↔ Spells word r.name := by
  have hparse (s : String) (r : Reg8) : Reg8.parse s = .ok r ↔ Named.findAnyCase? s = some r := by
    rw [Reg8.parse]
    cases (Named.findAnyCase? s : Option Reg8) <;> simp
  have hself (r : Reg8) : Named.findAnyCase? (Named.name r) = some r := by
    cases r <;> rfl
  show _ ↔ Spells word (Named.name r)
  exact named_eq_ok_iff hparse hself

theorem named_register16_iff {word : Word} {r : Reg16} :
    named Reg16.parse word = .ok r ↔ Spells word r.name := by
  have hparse (s : String) (r : Reg16) : Reg16.parse s = .ok r ↔ Named.findAnyCase? s = some r := by
    rw [Reg16.parse]
    cases (Named.findAnyCase? s : Option Reg16) <;> simp
  have hself (r : Reg16) : Named.findAnyCase? (Named.name r) = some r := by
    cases r <;> rfl
  show _ ↔ Spells word (Named.name r)
  exact named_eq_ok_iff hparse hself

theorem named_flag_iff {word : Word} {f : Flag} :
    named Flag.parse word = .ok f ↔ Spells word f.name := by
  have hparse (s : String) (f : Flag) : Flag.parse s = .ok f ↔ Named.findAnyCase? s = some f := by
    rw [Flag.parse]
    cases (Named.findAnyCase? s : Option Flag) <;> simp
  have hself (f : Flag) : Named.findAnyCase? (Named.name f) = some f := by
    cases f <;> rfl
  show _ ↔ Spells word (Named.name f)
  exact named_eq_ok_iff hparse hself

/-! ## Targets -/

/-- The words that name a target. -/
inductive Names : List Word → Target → Prop where
  | register8 {k w : Word} {r : Reg8} :
      Spells k "REG8" → Spells w r.name → Names [k, w] (.register8 r)
  | register16 {k w : Word} {r : Reg16} :
      Spells k "REG16" → Spells w r.name → Names [k, w] (.register16 r)
  | flag {k w : Word} {f : Flag} : Spells k "FLAG" → Spells w f.name → Names [k, w] (.flag f)
  | memory {k w : Word} {a : UInt16} :
      Spells k "MEM" → Number w a.toNat → Names [k, w] (.memory a)
  | ime {k : Word} : Spells k "IME" → Names [k] .ime
  | addressBus {k : Word} : Spells k "ADDRESS_BUS" → Names [k] .addressBus
  | dataBus {k : Word} : Spells k "DATA_BUS" → Names [k] .dataBus
  | pc {k : Word} : Spells k "PC" → Names [k] .pc
  | ir {k : Word} : Spells k "IR" → Names [k] .ir

theorem parseOperand_eq_ok_iff {α : Type} {make : α → Target} {parse : Word → Except CommandError α}
    {line rest : List Word} {t : Target} :
    parseOperand make parse line = .ok (t, rest) ↔
      ∃ w a, line = w :: rest ∧ parse w = .ok a ∧ t = make a := by
  cases line with
  | nil => simp [parseOperand]
  | cons w line =>
      rw [parseOperand, bind_eq_ok_iff]
      constructor
      · rintro ⟨a, ha, h⟩
        cases h
        exact ⟨w, a, rfl, ha, rfl⟩
      · rintro ⟨_, a, heq, ha, rfl⟩
        cases heq
        exact ⟨a, ha, rfl⟩

/-- A word is read as a keyword exactly if it spells this keyword. -/
theorem keyword_eq_iff {s : String} (hs : Text.upper s.toList = s.toList) {word : Word} :
    String.ofList (Text.upper word) = s ↔ Spells word s := by
  rw [Spells, hs, ← String.toList_inj, String.toList_ofList]

/-- Of a keyword only the letters count. -/
theorem parseTarget_of_spells {k : Word} {s : String} (h : Spells k s) (rest : List Word) :
    parseTarget (k :: rest) = parseTarget (s.toList :: rest) := by
  unfold Spells at h
  simp only [parseTarget, h]

theorem parseTarget_of_names {front : List Word} {t : Target} (h : Names front t)
    (rest : List Word) : parseTarget (front ++ rest) = .ok (t, rest) := by
  cases h with
  | @register8 k w r hk hw =>
      rw [List.cons_append, parseTarget_of_spells hk]
      show parseOperand .register8 (named Reg8.parse) (w :: rest) = _
      exact parseOperand_eq_ok_iff.mpr ⟨_, _, rfl, named_register8_iff.mpr hw, rfl⟩
  | @register16 k w r hk hw =>
      rw [List.cons_append, parseTarget_of_spells hk]
      show parseOperand .register16 (named Reg16.parse) (w :: rest) = _
      exact parseOperand_eq_ok_iff.mpr ⟨_, _, rfl, named_register16_iff.mpr hw, rfl⟩
  | @flag k w f hk hw =>
      rw [List.cons_append, parseTarget_of_spells hk]
      show parseOperand .flag (named Flag.parse) (w :: rest) = _
      exact parseOperand_eq_ok_iff.mpr ⟨_, _, rfl, named_flag_iff.mpr hw, rfl⟩
  | @memory k w a hk hw =>
      rw [List.cons_append, parseTarget_of_spells hk]
      show parseOperand .memory parseAddress (w :: rest) = _
      exact parseOperand_eq_ok_iff.mpr ⟨_, _, rfl, parseAddress_eq_ok_iff.mpr hw, rfl⟩
  | ime hk | addressBus hk | dataBus hk | pc hk | ir hk =>
      rw [List.cons_append, parseTarget_of_spells hk]
      rfl

theorem parseTarget_eq_ok_iff {line rest : List Word} {t : Target} :
    parseTarget line = .ok (t, rest) ↔ ∃ front, Names front t ∧ line = front ++ rest := by
  constructor
  · intro h
    cases line with
    | nil => cases h
    | cons k line =>
        simp only [parseTarget] at h
        split_ifs at h with h8 h16 hflag hmem hime haddress hdata hpc hir
        · obtain ⟨w, r, rfl, hr, rfl⟩ := parseOperand_eq_ok_iff.mp h
          have hk := (keyword_eq_iff rfl).mp h8
          exact ⟨[k, w], .register8 hk (named_register8_iff.mp hr), rfl⟩
        · obtain ⟨w, r, rfl, hr, rfl⟩ := parseOperand_eq_ok_iff.mp h
          have hk := (keyword_eq_iff rfl).mp h16
          exact ⟨[k, w], .register16 hk (named_register16_iff.mp hr), rfl⟩
        · obtain ⟨w, f, rfl, hf, rfl⟩ := parseOperand_eq_ok_iff.mp h
          have hk := (keyword_eq_iff rfl).mp hflag
          exact ⟨[k, w], .flag hk (named_flag_iff.mp hf), rfl⟩
        · obtain ⟨w, a, rfl, ha, rfl⟩ := parseOperand_eq_ok_iff.mp h
          have hk := (keyword_eq_iff rfl).mp hmem
          exact ⟨[k, w], .memory hk (parseAddress_eq_ok_iff.mp ha), rfl⟩
        · cases h
          exact ⟨[k], .ime ((keyword_eq_iff rfl).mp hime), rfl⟩
        · cases h
          exact ⟨[k], .addressBus ((keyword_eq_iff rfl).mp haddress), rfl⟩
        · cases h
          exact ⟨[k], .dataBus ((keyword_eq_iff rfl).mp hdata), rfl⟩
        · cases h
          exact ⟨[k], .pc ((keyword_eq_iff rfl).mp hpc), rfl⟩
        · cases h
          exact ⟨[k], .ir ((keyword_eq_iff rfl).mp hir), rfl⟩
  · rintro ⟨front, hnames, rfl⟩
    exact parseTarget_of_names hnames rest

/-! ## Commands -/

/-- The words that make a command. The value of a write is the number itself, so it is in
the range of what the target takes. -/
inductive Phrase : List Word → Command → Prop where
  | halt {k : Word} : Spells k "HALT" → Phrase [k] .halt
  | suspendHalt {k s : Word} :
      Spells k "SUSPEND" → Spells s "HALT" → Phrase [k, s] (.suspend .halt)
  | suspendStop {k s : Word} :
      Spells k "SUSPEND" → Spells s "STOP" → Phrase [k, s] (.suspend .stop)
  | write {k number : Word} {target : List Word} {w : Write} :
      Spells k "WRITE" → Names target w.target → Number number w.value.toNat →
        Phrase (k :: target ++ [number]) (.write w)

theorem fit_eq_some_iff {width : Width} {n : Nat} {v : Value} :
    fit width n = some v ↔ v.width = width ∧ v.toNat = n := by
  constructor
  · intro h
    cases width with
    | byte =>
        by_cases hn : n < 0x100
        · rw [fit, if_pos hn, Option.some_inj] at h
          rw [← h, Value.toNat, UInt8.toNat_ofNat', Nat.mod_eq_of_lt hn]
          exact ⟨rfl, rfl⟩
        · rw [fit, if_neg hn] at h
          cases h
    | word =>
        by_cases hn : n < 0x10000
        · rw [fit, if_pos hn, Option.some_inj] at h
          rw [← h, Value.toNat, UInt16.toNat_ofNat', Nat.mod_eq_of_lt hn]
          exact ⟨rfl, rfl⟩
        · rw [fit, if_neg hn] at h
          cases h
  · rintro ⟨rfl, rfl⟩
    exact fit_toNat v

theorem of?_eq_some_iff {t : Target} {v : Value} {w : Write} :
    Write.of? t v = some w ↔ w.target = t ∧ w.value = v := by
  constructor
  · intro h
    cases t <;> cases v <;> cases h <;> exact ⟨rfl, rfl⟩
  · rintro ⟨rfl, rfl⟩
    exact Write.of?_target_value w

/-- A number makes a write exactly if the target takes this number. -/
theorem fit_bind_eq_some_iff {t : Target} {n : Nat} {w : Write} :
    (fit t.width n).bind (Write.of? t) = some w ↔ w.target = t ∧ w.value.toNat = n := by
  constructor
  · intro h
    obtain ⟨v, hv, hw⟩ := Option.bind_eq_some_iff.mp h
    obtain ⟨-, hn⟩ := fit_eq_some_iff.mp hv
    obtain ⟨ht, rfl⟩ := of?_eq_some_iff.mp hw
    exact ⟨ht, hn⟩
  · rintro ⟨rfl, rfl⟩
    rw [← w.width_value, fit_toNat, Option.bind_some, Write.of?_target_value]

theorem parseWrite_eq_ok_iff {line rest : List Word} {c : Command} :
    parseWrite line = .ok (c, rest) ↔
      ∃ target number w, Names target w.target ∧ Number number w.value.toNat ∧
        line = target ++ number :: rest ∧ c = .write w := by
  rw [parseWrite, bind_eq_ok_iff]
  constructor
  · rintro ⟨⟨t, line'⟩, ht, h⟩
    obtain ⟨target, hnames, rfl⟩ := parseTarget_eq_ok_iff.mp ht
    cases line' with
    | nil => cases h
    | cons number line' =>
        obtain ⟨n, hn, h⟩ := bind_eq_ok_iff.mp h
        cases hw : (fit t.width n).bind (Write.of? t) with
        | none =>
            simp only [hw] at h
            cases h
        | some w =>
            simp only [hw] at h
            cases h
            obtain ⟨rfl, rfl⟩ := fit_bind_eq_some_iff.mp hw
            exact ⟨target, number, w, hnames, parseNumber_eq_ok_iff.mp hn, rfl, rfl⟩
  · rintro ⟨target, number, w, hnames, hnumber, rfl, rfl⟩
    refine ⟨_, parseTarget_of_names hnames _, bind_eq_ok_iff.mpr ?_⟩
    refine ⟨_, parseNumber_eq_ok_iff.mpr hnumber, ?_⟩
    rw [fit_bind_eq_some_iff.mpr ⟨rfl, rfl⟩]
    rfl

theorem parseSuspend_eq_ok_iff {line rest : List Word} {c : Command} :
    parseSuspend line = .ok (c, rest) ↔
      ∃ s, line = s :: rest ∧
        (Spells s "HALT" ∧ c = .suspend .halt ∨ Spells s "STOP" ∧ c = .suspend .stop) := by
  constructor
  · intro h
    cases line with
    | nil => cases h
    | cons s line =>
        simp only [parseSuspend] at h
        split_ifs at h with hhalt hstop
        · cases h
          exact ⟨s, rfl, .inl ⟨(keyword_eq_iff rfl).mp hhalt, rfl⟩⟩
        · cases h
          exact ⟨s, rfl, .inr ⟨(keyword_eq_iff rfl).mp hstop, rfl⟩⟩
  · rintro ⟨s, rfl, ⟨hs, rfl⟩ | ⟨hs, rfl⟩⟩
    · unfold Spells at hs
      simp only [parseSuspend, hs]
      rfl
    · unfold Spells at hs
      simp only [parseSuspend, hs]
      rfl

theorem parseHead_of_spells {k : Word} {s : String} (h : Spells k s) (rest : List Word) :
    parseHead (k :: rest) = parseHead (s.toList :: rest) := by
  unfold Spells at h
  simp only [parseHead, h]

theorem parseHead_of_phrase {front : List Word} {c : Command} (h : Phrase front c)
    (rest : List Word) : parseHead (front ++ rest) = .ok (c, rest) := by
  cases h with
  | halt hk =>
      rw [List.cons_append, parseHead_of_spells hk]
      rfl
  | @suspendHalt k s hk hs =>
      rw [List.cons_append, parseHead_of_spells hk]
      show parseSuspend (s :: rest) = _
      exact parseSuspend_eq_ok_iff.mpr ⟨_, rfl, .inl ⟨hs, rfl⟩⟩
  | @suspendStop k s hk hs =>
      rw [List.cons_append, parseHead_of_spells hk]
      show parseSuspend (s :: rest) = _
      exact parseSuspend_eq_ok_iff.mpr ⟨_, rfl, .inr ⟨hs, rfl⟩⟩
  | write hk hnames hnumber =>
      rw [List.append_assoc, List.cons_append, parseHead_of_spells hk]
      show parseWrite _ = _
      exact parseWrite_eq_ok_iff.mpr ⟨_, _, _, hnames, hnumber, rfl, rfl⟩

theorem parseHead_eq_ok_iff {line rest : List Word} {c : Command} :
    parseHead line = .ok (c, rest) ↔ ∃ front, Phrase front c ∧ line = front ++ rest := by
  constructor
  · intro h
    cases line with
    | nil => cases h
    | cons k line =>
        simp only [parseHead] at h
        split_ifs at h with hhalt hsuspend hwrite
        · cases h
          exact ⟨[k], .halt ((keyword_eq_iff rfl).mp hhalt), rfl⟩
        · have hk := (keyword_eq_iff rfl).mp hsuspend
          obtain ⟨s, rfl, ⟨hs, rfl⟩ | ⟨hs, rfl⟩⟩ := parseSuspend_eq_ok_iff.mp h
          · exact ⟨[k, s], .suspendHalt hk hs, rfl⟩
          · exact ⟨[k, s], .suspendStop hk hs, rfl⟩
        · have hk := (keyword_eq_iff rfl).mp hwrite
          obtain ⟨target, number, w, hnames, hnumber, rfl, rfl⟩ := parseWrite_eq_ok_iff.mp h
          exact ⟨k :: target ++ [number], .write hk hnames hnumber, by simp⟩
  · rintro ⟨front, hphrase, rfl⟩
    exact parseHead_of_phrase hphrase rest

/-- No word may be left over. -/
theorem parseWords_eq_ok_iff {line : List Word} {c : Command} :
    parseWords line = .ok c ↔ Phrase line c := by
  rw [parseWords, bind_eq_ok_iff]
  constructor
  · rintro ⟨⟨c', rest⟩, hhead, h⟩
    cases rest with
    | nil =>
        cases h
        obtain ⟨front, hphrase, rfl⟩ := parseHead_eq_ok_iff.mp hhead
        rwa [List.append_nil]
    | cons extra rest => cases h
  · intro h
    have hhead := parseHead_of_phrase h []
    rw [List.append_nil] at hhead
    exact ⟨_, hhead, rfl⟩

/-- **Exactly the grammar is accepted.** A line is read as a command exactly if its words,
whatever the blanks around them, are a phrase for this command. -/
theorem parse_eq_ok_iff (line : List Char) (c : Command) :
    parse line = .ok c ↔ ∃ ws, Text.Spaced line ws ∧ Phrase ws c := by
  rw [parse, parseWords_eq_ok_iff]
  constructor
  · intro hphrase
    exact ⟨_, Text.words_eq_iff.mp rfl, hphrase⟩
  · rintro ⟨ws, hspaced, hphrase⟩
    rwa [Text.words_eq_iff.mpr hspaced]

example : parse " Write\tmem 0x+001F +007 ".toList = .ok (.write (.memory 0x1F 7)) := by rfl

example : parse "WRITE IME 256".toList = .error (.widthMismatch .ime) := by rfl

end Command

end GoldenTrace
