import GoldenTrace.Command.Text
import GoldenTrace.Proofs.Numeral
import GoldenTrace.Proofs.Text

/-!
# Command lines read back

The line of a command consists of its words, one space between them, and is
read back as this command. Names are found although they are looked for in
either case, and numbers because they are written as wide as their value.
-/

namespace GoldenTrace

open Text (solid)

/-! ## The words of a line -/

/-- The words of a target. -/
def Target.words : Target → List Command.Word
  | register8 r => ["REG8".toList, r.name.toList]
  | register16 r => ["REG16".toList, r.name.toList]
  | memory a => ["MEM".toList, (Text.hexLiteral 4 a.toNat).toList]
  | flag f => ["FLAG".toList, f.name.toList]
  | ime => ["IME".toList]
  | addressBus => ["ADDRESS_BUS".toList]
  | dataBus => ["DATA_BUS".toList]
  | pc => ["PC".toList]
  | ir => ["IR".toList]

/-- The words of a command. -/
def Command.words : Command → List Word
  | write w => "WRITE".toList :: w.target.words ++ [w.value.display.toList]
  | halt => ["HALT".toList]
  | suspend .halt => ["SUSPEND".toList, "HALT".toList]
  | suspend .stop => ["SUSPEND".toList, "STOP".toList]

theorem Target.display_eq (t : Target) : t.display.toList = [' '].intercalate t.words := by
  cases t <;> simp [display, words]

theorem Command.display_eq (c : Command) : c.display.toList = [' '].intercalate c.words := by
  cases c with
  | write w =>
      rw [display, Write.display, words]
      simp only [String.toList_append, Target.display_eq]
      cases w.target <;> simp [Target.words]
  | halt => rfl
  | suspend s => cases s <;> rfl

theorem solid_hexLiteral (width n : Nat) : solid (Text.hexLiteral width n).toList = true := by
  rw [Text.hexLiteral, String.toList_ofList, Text.solid_iff]
  refine ⟨List.cons_ne_nil _ _, ?_⟩
  have hdigit : ∀ k < 16, Text.isBlank (Text.digit k) = false := by decide
  intro c hc
  simp only [List.mem_cons] at hc
  rcases hc with rfl | rfl | hc
  · rfl
  · rfl
  · obtain ⟨k, hk, rfl⟩ := Text.mem_hex hc
    exact hdigit k hk

theorem Target.solid_words (t : Target) : t.words.all solid = true := by
  cases t with
  | register8 r => cases r <;> rfl
  | register16 r => cases r <;> rfl
  | memory a =>
      rw [words, List.all_cons, List.all_cons, solid_hexLiteral]
      rfl
  | flag f => cases f <;> rfl
  | _ => rfl

theorem Command.solid_words (c : Command) : c.words.all solid = true := by
  cases c with
  | write w =>
      have hvalue : solid w.value.display.toList = true := by
        cases w.value with
        | byte v => exact solid_hexLiteral 2 v.toNat
        | word v => exact solid_hexLiteral 4 v.toNat
      rw [words, List.all_append, List.all_cons, w.target.solid_words, List.all_cons, hvalue]
      rfl
  | halt => rfl
  | suspend s => cases s <;> rfl

theorem Command.words_display (c : Command) : Text.words c.display.toList = c.words := by
  rw [display_eq, Text.words_intercalate c.solid_words]

theorem Command.not_mem_display (c : Command) : '\n' ∉ c.display.toList := by
  rw [display_eq]
  exact Text.not_mem_intercalate c.solid_words

/-! ## Reading the words -/

namespace Command

theorem parseNumber_hexLiteral (width : Nat) {n : Nat} (hn : n < 0x100000000) :
    parseNumber (Text.hexLiteral width n).toList = .ok n := by
  rw [Text.hexLiteral, String.toList_ofList, parseNumber, Text.afterHexMark]
  simp only [Text.readNumeral_hex, if_pos hn]

theorem parseAddress_hexLiteral (a : UInt16) :
    parseAddress (Text.hexLiteral 4 a.toNat).toList = .ok a := by
  have ha := a.toNat_lt
  rw [parseAddress, parseNumber_hexLiteral 4 (by omega)]
  show (if a.toNat < 0x10000 then .ok (UInt16.ofNat a.toNat) else _) = (.ok a : Except _ _)
  rw [if_pos ha, UInt16.ofNat_toNat]

theorem named_register8 (r : Reg8) : named Reg8.parse r.name.toList = .ok r := by
  cases r <;> rfl

theorem named_register16 (r : Reg16) : named Reg16.parse r.name.toList = .ok r := by
  cases r <;> rfl

theorem named_flag (f : Flag) : named Flag.parse f.name.toList = .ok f := by
  cases f <;> rfl

/-- The words of a target are read as this target, and no further. -/
theorem parseTarget_words (t : Target) (rest : List Word) :
    parseTarget (t.words ++ rest) = .ok (t, rest) := by
  cases t with
  | register8 r =>
      show parseOperand .register8 (named Reg8.parse) (r.name.toList :: rest) = _
      rw [parseOperand, named_register8]
      rfl
  | register16 r =>
      show parseOperand .register16 (named Reg16.parse) (r.name.toList :: rest) = _
      rw [parseOperand, named_register16]
      rfl
  | memory a =>
      show parseOperand .memory parseAddress ((Text.hexLiteral 4 a.toNat).toList :: rest) = _
      rw [parseOperand, parseAddress_hexLiteral]
      rfl
  | flag f =>
      show parseOperand .flag (named Flag.parse) (f.name.toList :: rest) = _
      rw [parseOperand, named_flag]
      rfl
  | _ => rfl

/-- A value that is written in its own width fits this width. -/
theorem fit_toNat (v : Value) : fit v.width v.toNat = some v := by
  cases v with
  | byte v => rw [Value.width, Value.toNat, fit, if_pos v.toNat_lt, UInt8.ofNat_toNat]
  | word v => rw [Value.width, Value.toNat, fit, if_pos v.toNat_lt, UInt16.ofNat_toNat]

theorem parseNumber_display (v : Value) : parseNumber v.display.toList = .ok v.toNat := by
  cases v with
  | byte v =>
      have hv := v.toNat_lt
      exact parseNumber_hexLiteral 2 (by omega)
  | word v =>
      have hv := v.toNat_lt
      exact parseNumber_hexLiteral 4 (by omega)

theorem parseWrite_words (w : Write) :
    parseWrite (w.target.words ++ [w.value.display.toList]) = .ok (.write w, []) := by
  rw [parseWrite, parseTarget_words]
  simp only [bind, Except.bind, parseNumber_display]
  rw [← w.width_value, fit_toNat, Option.bind_some, Write.of?_target_value]
  rfl

theorem parseWords_words (c : Command) : parseWords c.words = .ok c := by
  cases c with
  | write w =>
      have hhead : parseHead (words (.write w)) = .ok (.write w, []) := by
        show parseWrite (w.target.words ++ [w.value.display.toList]) = _
        exact parseWrite_words w
      rw [parseWords, hhead]
      rfl
  | halt => rfl
  | suspend s => cases s <;> rfl

/-- A command is read from every line that has its words. -/
theorem parse_of_words {line : List Char} {c : Command} (h : Text.words line = c.words) :
    parse line = .ok c := by
  rw [parse, h, parseWords_words]

end Command

end GoldenTrace
