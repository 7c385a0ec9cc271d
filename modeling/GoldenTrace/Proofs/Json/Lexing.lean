import GoldenTrace.Json.Printer
import GoldenTrace.Json.Token
import GoldenTrace.Proofs.Numeral
import Mathlib.Algebra.Group.Nat.Defs

/-!
# The tokens of a written value

Whatever the layout, a written value is cut into the same tokens: those of its
structure, in order. This needs that an escaped string reads back character by
character, and that a number ends where its digits do, since none of the
characters that may follow a value continues a number.
-/

namespace GoldenTrace.Json

/-! ## Values that a text holds exactly -/

mutual

/-- Values of at most `n` levels of containers whose numbers are integers of at
most 53 bits. -/
def Within : Nat → Json → Prop
  | _, .null => True
  | _, .bool _ => True
  | _, .str _ => True
  | _, .int m => m.natAbs < 2 ^ 53
  | n + 1, .arr items => WithinItems n items
  | n + 1, .obj members => WithinMembers n members
  | _, _ => False

/-- `Within` of every item. -/
def WithinItems (n : Nat) : List Json → Prop
  | [] => True
  | v :: vs => Within n v ∧ WithinItems n vs

/-- `Within` of every member. -/
def WithinMembers (n : Nat) : List (String × Json) → Prop
  | [] => True
  | (_, v) :: ms => Within n v ∧ WithinMembers n ms

end

theorem withinItems_iff {n : Nat} {vs : List Json} :
    WithinItems n vs ↔ ∀ v ∈ vs, Within n v := by
  induction vs with
  | nil => simp [WithinItems]
  | cons v vs ih => rw [WithinItems, ih, List.forall_mem_cons]

mutual

/-- The tokens of a value. -/
def tokens : Json → List Token
  | .str s => [.str s]
  | .arr [] => [.openArray, .closeArray]
  | .arr (v :: vs) => .openArray :: tokens v ++ itemTokens vs ++ [.closeArray]
  | .obj [] => [.openObject, .closeObject]
  | .obj ((k, v) :: ms) =>
    .openObject :: .str k :: .colon :: tokens v ++ memberTokens ms ++ [.closeObject]
  | v => [.plain v]

/-- The tokens of the items after the first. -/
def itemTokens : List Json → List Token
  | [] => []
  | v :: vs => .comma :: tokens v ++ itemTokens vs

/-- The tokens of the members after the first. -/
def memberTokens : List (String × Json) → List Token
  | [] => []
  | (k, v) :: ms => .comma :: .str k :: .colon :: tokens v ++ memberTokens ms

end

namespace Token

/-! ## Strings -/

theorem scanString_unit {a b c d x : Char} {u : Nat} (hu : unit? a b c d = some u)
    (hx : unitChar? u = some x) (r : List Char) :
    scanString ('\\' :: 'u' :: a :: b :: c :: d :: r) = prepend (some x) (scanString r) := by
  -- a second unit behind the first is looked at only if the first is half a pair
  by_cases h : ∃ e f g i s, r = '\\' :: 'u' :: e :: f :: g :: i :: s
  · obtain ⟨e, f, g, i, s, rfl⟩ := h
    rw [scanString, hu]
    simp only [hx]
  · rw [scanString, hu]
    · simp only [hx]
    · rintro e f g i s rfl
      exact h ⟨e, f, g, i, s, rfl⟩

theorem scanString_short {c x : Char} (hc : unescape? c = some x) (r : List Char) :
    scanString ('\\' :: c :: r) = prepend (some x) (scanString r) := by
  have hu : c ≠ 'u' := by
    rintro rfl
    cases hc
  rw [scanString, hc]
  · rintro a b d e f g i j s rfl
    exact absurd rfl hu
  · rintro a b d e s rfl
    exact absurd rfl hu

theorem scanString_keep {c : Char} (hquote : c ≠ '\x22') (hslash : c ≠ '\\')
    (hc : 0x20 ≤ c.toNat) (r : List Char) :
    scanString (c :: r) = prepend (some c) (scanString r) := by
  have hplain : ¬ (decide (c.toNat < 0x20) || c == '\\') = true := by
    rw [Bool.or_eq_true, decide_eq_true_eq, beq_iff_eq, not_or]
    exact ⟨Nat.not_lt.mpr hc, hslash⟩
  -- no escape begins here, so only the last equation of the scan applies
  rw [scanString, if_neg hplain]
  · exact hquote
  all_goals
    intros
    exact absurd ‹c = '\\'› hslash

theorem unit?_control {n : Nat} (h : n < 0x20) :
    unit? '0' '0' (lowerDigit (n / 16)) (lowerDigit (n % 16)) = some n := by
  have all : ∀ n < 0x20,
      unit? '0' '0' (lowerDigit (n / 16)) (lowerDigit (n % 16)) = some n := by decide
  exact all n h

theorem unitChar?_toNat (c : Char) : unitChar? c.toNat = some c := by
  have h : c.toNat.isValidChar := c.valid
  rw [unitChar?, dif_pos h]
  rfl

/-- An escaped character reads as itself. -/
theorem scanString_escape (c : Char) (r : List Char) :
    scanString (escape c ++ r) = prepend (some c) (scanString r) := by
  rw [escape]
  -- the seven characters with an escape of their own
  iterate 7
    split
    · rename_i h
      rw [beq_iff_eq.mp h]
      exact scanString_short rfl r
  split
  case isTrue h => exact scanString_unit (unit?_control h) (unitChar?_toNat c) r
  case isFalse hquote hslash _ _ _ _ _ hc =>
    exact scanString_keep (by simpa using hquote) (by simpa using hslash) (by omega) r

/-- The inside of a quoted string reads back, up to the closing quote. -/
theorem scanString_quoted (s r : List Char) :
    scanString (s.flatMap escape ++ '\x22' :: r) = (some (some s), r) := by
  induction s with
  | nil => rw [List.flatMap_nil, List.nil_append, scanString]
  | cons c s ih =>
      rw [List.flatMap_cons, List.append_assoc, scanString_escape, ih]
      rfl

/-! ## Numbers -/

/-- A text that does not continue a number before it. -/
def Stops (r : List Char) : Prop :=
  ∀ c ∈ r.head?, c.isDigit = false ∧ c ≠ '.' ∧ c ≠ 'e' ∧ c ≠ 'E'

theorem stops_cons {c : Char} {r : List Char} (h : c.isDigit = false) (hdot : c ≠ '.')
    (he : c ≠ 'e') (hE : c ≠ 'E') : Stops (c :: r) := by
  intro d hd
  rw [← Option.some.inj hd]
  exact ⟨h, hdot, he, hE⟩

theorem scanFraction_stops {r : List Char} (h : Stops r) : scanFraction r = some ([], r) := by
  rw [scanFraction.eq_def]
  split
  case h_1 s => exact absurd rfl (h '.' rfl).2.1
  case h_2 => rfl

theorem scanExponent_stops {r : List Char} (h : Stops r) : scanExponent r = some (none, r) := by
  cases r with
  | nil => rfl
  | cons c r =>
      obtain ⟨-, -, he, hE⟩ := h c rfl
      rw [scanExponent.eq_def]
      simp [he, hE]

theorem accumulate_le {acc m : Nat} {ds : List Char} (h : Text.accumulate 10 acc ds = some m) :
    acc ≤ m := by
  induction ds generalizing acc with
  | nil => exact Nat.le_of_eq (Option.some.inj h)
  | cons c ds ih =>
      rw [Text.accumulate] at h
      split at h
      · split at h
        · exact Nat.le_trans (by omega) (ih h)
        · cases h
      · cases h

/-- A significand takes up all digits of a number that 64 bits hold. -/
theorem absorb_eq {acc m : Nat} {ds : List Char} (h : Text.accumulate 10 acc ds = some m)
    (hm : m < significandBound) : absorb acc ds = (m, []) := by
  induction ds generalizing acc with
  | nil => rw [absorb, Option.some.inj h]
  | cons c ds ih =>
      rw [Text.accumulate] at h
      split at h
      case h_1 d hd =>
        split at h
        · have hle := accumulate_le h
          rw [absorb, hd]
          simp only [Option.getD_some]
          rw [if_pos (Nat.lt_of_le_of_lt hle hm)]
          exact ih h
        · cases h
      case h_2 => cases h

theorem shift_le_shift_sub_shift {a b c : Nat} (hab : a ≤ b) (hbc : b < c) :
    1 <<< a ≤ 1 <<< c - 1 <<< b := by
  have hlow := Nat.pow_le_pow_right Nat.two_pos hab
  have htwice := Nat.pow_le_pow_right Nat.two_pos (Nat.succ_le_of_lt hbc)
  rw [Nat.pow_succ] at htwice
  simp only [Nat.one_shiftLeft]
  omega

theorem lt_doubleBound {m : Nat} (h : m < 2 ^ 53) : m < doubleBound := by
  have hbound : 1 <<< 53 ≤ doubleBound := shift_le_shift_sub_shift (by omega) (by omega)
  exact Nat.lt_of_lt_of_le h hbound

/-- No integer of at most 53 bits is beyond the doubles. -/
theorem beyondDouble_decimal {m : Nat} (hm : m < 2 ^ 53) :
    beyondDouble (Text.decimal m) [] 0 = false := by
  have hread : Text.accumulate 10 0 (Text.decimal m) = some m := by
    rw [Text.decimal, ← Text.readDigits_of_ne_nil (Text.digits_ne_nil 10 m)]
    exact Text.readDigits_digits (by omega) (by omega) m
  have hbound : m < significandBound := Nat.lt_trans hm (by decide)
  have hone : nearestDouble 1 = 1 := nearestDouble_eq_self (by decide)
  simp only [beyondDouble, scientific, absorb_eq hread hbound, absorb, List.length_nil, overflows]
  split
  · rfl
  · rw [if_neg (by omega)]
    simp only [Nat.sub_self, Int.ofNat_zero, Int.add_zero, Int.sub_zero, Int.toNat_zero,
      Nat.pow, hone, Nat.mul_one, nearestDouble_eq_self hm, decide_eq_false_iff_not]
    exact Nat.not_le_of_lt (lt_doubleBound hm)

theorem takeWhile_isDigit_decimal (m : Nat) {r : List Char} (h : Stops r) :
    (Text.decimal m ++ r).takeWhile Char.isDigit = Text.decimal m := by
  have hdigits : ∀ c ∈ Text.decimal m, c.isDigit = true := by
    intro c hc
    obtain ⟨k, hk, rfl⟩ := Text.mem_digits (by omega) hc
    exact Text.isDigit_digit hk
  rw [List.takeWhile_append_of_pos hdigits]
  cases r with
  | nil => simp
  | cons c r => simp [(h c rfl).1]

theorem dropWhile_isDigit_decimal (m : Nat) {r : List Char} (h : Stops r) :
    (Text.decimal m ++ r).dropWhile Char.isDigit = r := by
  have happ := List.takeWhile_append_dropWhile (p := Char.isDigit) (l := Text.decimal m ++ r)
  rw [takeWhile_isDigit_decimal m h] at happ
  exact List.append_cancel_left happ

/-- A decimal numeral has no leading zero to be refused for. -/
theorem leadingZero_decimal (m : Nat) :
    ((Text.decimal m).head? == some '0' && decide ((Text.decimal m).length > 1)) = false := by
  rcases Nat.eq_zero_or_pos m with rfl | hm
  · rw [Text.decimal, Text.digits_zero]
    rfl
  · obtain ⟨k, ds, hk, hk', heq⟩ := Text.digits_eq_cons (b := 10) (by omega) hm
    have hne : ∀ k < 10, 0 < k → Text.digit k ≠ '0' := by decide
    rw [Text.decimal, heq]
    simp [hne k hk' hk]

theorem scanUnsigned_decimal {negative : Bool} {m : Nat} {r : List Char} (hm : m < 2 ^ 53)
    (hsign : negative = true → 0 < m) (h : Stops r) :
    scanUnsigned negative (Text.decimal m ++ r) =
      (plain (.int (if negative then -(m : Int) else m)), r) := by
  have hne : (Text.decimal m).isEmpty = false := by
    rw [List.isEmpty_eq_false_iff]
    exact Text.digits_ne_nil 10 m
  have hread : Text.readDigits 10 (Text.decimal m) = some m :=
    Text.readDigits_digits (by omega) (by omega) m
  have hzero : (negative && m == 0) = false := by
    cases negative with
    | false => rfl
    | true => simpa using Nat.ne_of_gt (hsign rfl)
  rw [scanUnsigned]
  simp only [takeWhile_isDigit_decimal m h, dropWhile_isDigit_decimal m h, hne,
    leadingZero_decimal, scanFraction_stops h, scanExponent_stops h, Bool.or_self, number,
    List.append_nil, hread, Option.getD_some, Option.getD_none, beyondDouble_decimal hm, hzero]
  simp

theorem scan_digit {k : Nat} (hk : k < 10) (cs : List Char) :
    scan (Text.digit k) cs = scanUnsigned false (Text.digit k :: cs) := by
  have all : ∀ k < 10, punctuation? (Text.digit k) = none ∧ (Text.digit k == '\x22') = false ∧
      (Text.digit k == '-') = false := by decide
  obtain ⟨hpunct, hquote, hminus⟩ := all k hk
  unfold scan
  rw [hpunct]
  simp only [hquote, hminus, Text.isDigit_digit hk, Bool.false_eq_true, if_true, if_false]

/-- A written integer is one token, up to what stands behind it. -/
theorem scan_integer {n : Int} {r : List Char} (hn : n.natAbs < 2 ^ 53) (h : Stops r) :
    ∃ c cs, Text.integer n ++ r = c :: cs ∧ isSpace c = false ∧
      scan c cs = (plain (.int n), r) := by
  rw [Text.integer]
  split
  case isTrue hneg =>
    refine ⟨'-', Text.decimal n.natAbs ++ r, rfl, rfl, ?_⟩
    have hscan : scan '-' (Text.decimal n.natAbs ++ r) =
        scanUnsigned true (Text.decimal n.natAbs ++ r) := rfl
    rw [hscan, scanUnsigned_decimal hn (fun _ => by omega) h, if_pos rfl]
    congr 3
    omega
  case isFalse hneg =>
    obtain ⟨c, cs, hcs⟩ := List.exists_cons_of_ne_nil (Text.digits_ne_nil 10 n.natAbs)
    have hmem : c ∈ Text.digits 10 n.natAbs := hcs ▸ List.mem_cons_self
    obtain ⟨k, hk, rfl⟩ := Text.mem_digits (by omega) hmem
    have hspace : ∀ k < 10, isSpace (Text.digit k) = false := by decide
    refine ⟨Text.digit k, cs ++ r, by rw [Text.decimal, hcs, List.cons_append], hspace k hk, ?_⟩
    rw [scan_digit hk, ← List.cons_append, ← hcs, ← Text.decimal,
      scanUnsigned_decimal hn (by simp) h]
    simp only [Bool.false_eq_true, if_false]
    congr 3
    omega

/-! ## Tokens one by one -/

theorem lexOnto_space {done : List Token} {c : Char} (h : isSpace c = true) (cs : List Char) :
    lexOnto done (c :: cs) = lexOnto done cs := by
  rw [lexOnto, if_pos h]

theorem lexOnto_token {done : List Token} {c : Char} {cs r : List Char} {t : Token}
    (hc : isSpace c = false) (h : scan c cs = (t, r)) (ht : t ≠ .flaw) :
    lexOnto done (c :: cs) = lexOnto (t :: done) r := by
  rw [lexOnto, if_neg (by simp [hc])]
  split
  case h_1 heq _ =>
    rw [h] at heq
    exact absurd (Prod.mk.inj heq).1 ht
  case h_2 t' r' _ _ heq _ =>
    rw [h] at heq
    obtain ⟨rfl, rfl⟩ := Prod.mk.inj heq
    rfl

theorem lexOnto_punctuation {done : List Token} {c : Char} {t : Token} (cs : List Char)
    (hc : isSpace c = false) (h : punctuation? c = some t) (ht : t ≠ .flaw) :
    lexOnto done (c :: cs) = lexOnto (t :: done) cs := by
  refine lexOnto_token hc ?_ ht
  unfold scan
  rw [h]

theorem lexOnto_spaces {done : List Token} {w : List Char} (h : ∀ c ∈ w, isSpace c = true)
    (cs : List Char) : lexOnto done (w ++ cs) = lexOnto done cs := by
  induction w with
  | nil => rfl
  | cons c w ih =>
      rw [List.cons_append, lexOnto_space (h c List.mem_cons_self)]
      exact ih fun x hx => h x (List.mem_cons_of_mem _ hx)

theorem lexOnto_lineBreak (l : Layout) (depth : Nat) (done : List Token) (cs : List Char) :
    lexOnto done (l.lineBreak depth ++ cs) = lexOnto done cs := by
  refine lexOnto_spaces ?_ cs
  intro c hc
  cases l with
  | compact => cases hc
  | indented =>
      rcases List.mem_cons.mp hc with rfl | hc
      · rfl
      · rw [List.eq_of_mem_replicate hc]
        rfl

theorem lexOnto_colon (l : Layout) (done : List Token) (cs : List Char) :
    lexOnto done (l.colon ++ cs) = lexOnto (.colon :: done) cs := by
  cases l with
  | compact => exact lexOnto_punctuation cs rfl rfl (by simp)
  | indented =>
      rw [Layout.colon, List.cons_append, lexOnto_punctuation _ rfl rfl (by simp)]
      exact lexOnto_space rfl cs

theorem lexOnto_quoted (s : String) (done : List Token) (cs : List Char) :
    lexOnto done (quoted s ++ cs) = lexOnto (.str s :: done) cs := by
  rw [quoted, List.append_assoc, List.cons_append, List.singleton_append]
  refine lexOnto_token rfl ?_ (by simp)
  have hquote : punctuation? '\x22' = none := rfl
  unfold scan
  rw [hquote]
  simp only [beq_self_eq_true, if_pos, scanString_quoted, String.ofList_toList]

/-! ## What may follow a value -/

theorem stops_lineBreak (l : Layout) (depth : Nat) {r : List Char} (h : Stops r) :
    Stops (l.lineBreak depth ++ r) := by
  cases l with
  | compact => exact h
  | indented => exact stops_cons rfl (by decide) (by decide) (by decide)

theorem stops_writeItems (l : Layout) (depth : Nat) (vs : List Json) {r : List Char}
    (h : Stops r) : Stops (writeItems l depth vs ++ r) := by
  cases vs with
  | nil => exact h
  | cons v vs => exact stops_cons rfl (by decide) (by decide) (by decide)

theorem stops_writeMembers (l : Layout) (depth : Nat) (ms : List (String × Json))
    {r : List Char} (h : Stops r) : Stops (writeMembers l depth ms ++ r) := by
  cases ms with
  | nil => exact h
  | cons m ms => exact stops_cons rfl (by decide) (by decide) (by decide)

end Token

/-! ## Values -/

open Token

mutual

/-- A written value is cut into its tokens, and the text goes on behind it. -/
theorem lexOnto_write (l : Layout) (depth n : Nat) (done : List Token) (r : List Char) :
    ∀ v : Json, Within n v → Stops r →
      lexOnto done (write l depth v ++ r) = lexOnto ((tokens v).reverse ++ done) r
  | .null, _, _ => lexOnto_token rfl rfl (by simp)
  | .bool true, _, _ => lexOnto_token rfl rfl (by simp)
  | .bool false, _, _ => lexOnto_token rfl rfl (by simp)
  | .int m, hv, hr => by
      obtain ⟨c, cs, heq, hc, hscan⟩ := scan_integer hv hr
      rw [write, heq]
      exact lexOnto_token hc hscan (by simp)
  | .str s, _, _ => lexOnto_quoted s done r
  | .arr [], _, _ => by
      rw [write, tokens, List.cons_append, lexOnto_punctuation _ rfl rfl (by simp)]
      exact lexOnto_punctuation _ rfl rfl (by simp)
  | .arr (v :: vs), hv, hr => by
      cases n with
      | zero => exact hv.elim
      | succ n =>
          have hclose : Stops (l.lineBreak depth ++ ']' :: r) :=
            stops_lineBreak l depth (stops_cons rfl (by decide) (by decide) (by decide))
          simp only [write, List.cons_append, List.append_assoc, List.nil_append]
          rw [lexOnto_punctuation _ rfl rfl (by simp), lexOnto_lineBreak,
            lexOnto_write l (depth + 1) n _ _ v hv.1 (stops_writeItems l _ vs hclose),
            lexOnto_writeItems l (depth + 1) n _ _ vs hv.2 hclose, lexOnto_lineBreak,
            lexOnto_punctuation _ rfl rfl (by simp)]
          simp [tokens]
  | .obj [], _, _ => by
      rw [write, tokens, List.cons_append, lexOnto_punctuation _ rfl rfl (by simp)]
      exact lexOnto_punctuation _ rfl rfl (by simp)
  | .obj ((k, v) :: ms), hv, hr => by
      cases n with
      | zero => exact hv.elim
      | succ n =>
          have hclose : Stops (l.lineBreak depth ++ '\x7d' :: r) :=
            stops_lineBreak l depth (stops_cons rfl (by decide) (by decide) (by decide))
          simp only [write, List.cons_append, List.append_assoc, List.nil_append]
          rw [lexOnto_punctuation _ rfl rfl (by simp), lexOnto_lineBreak, lexOnto_quoted,
            lexOnto_colon,
            lexOnto_write l (depth + 1) n _ _ v hv.1 (stops_writeMembers l _ ms hclose),
            lexOnto_writeMembers l (depth + 1) n _ _ ms hv.2 hclose, lexOnto_lineBreak,
            lexOnto_punctuation _ rfl rfl (by simp)]
          simp [tokens]
  | .real _, hv, _ => by cases n <;> exact hv.elim
  | .valueless, hv, _ => by cases n <;> exact hv.elim
  | .cut _ _, hv, _ => by cases n <;> exact hv.elim
  | .broken, hv, _ => by cases n <;> exact hv.elim

theorem lexOnto_writeItems (l : Layout) (depth n : Nat) (done : List Token) (r : List Char) :
    ∀ vs : List Json, WithinItems n vs → Stops r →
      lexOnto done (writeItems l depth vs ++ r) = lexOnto ((itemTokens vs).reverse ++ done) r
  | [], _, _ => rfl
  | v :: vs, hv, hr => by
      simp only [writeItems, List.cons_append, List.append_assoc]
      rw [lexOnto_punctuation _ rfl rfl (by simp), lexOnto_lineBreak,
        lexOnto_write l depth n _ _ v hv.1 (stops_writeItems l _ vs hr),
        lexOnto_writeItems l depth n _ _ vs hv.2 hr]
      simp [itemTokens]

theorem lexOnto_writeMembers (l : Layout) (depth n : Nat) (done : List Token) (r : List Char) :
    ∀ ms : List (String × Json), WithinMembers n ms → Stops r →
      lexOnto done (writeMembers l depth ms ++ r) =
        lexOnto ((memberTokens ms).reverse ++ done) r
  | [], _, _ => rfl
  | (k, v) :: ms, hv, hr => by
      simp only [writeMembers, List.cons_append, List.append_assoc]
      rw [lexOnto_punctuation _ rfl rfl (by simp), lexOnto_lineBreak, lexOnto_quoted,
        lexOnto_colon, lexOnto_write l depth n _ _ v hv.1 (stops_writeMembers l _ ms hr),
        lexOnto_writeMembers l depth n _ _ ms hv.2 hr]
      simp [memberTokens]

end

/-- The tokens of a text that is one written value and a line feed. -/
theorem lex_write (l : Layout) {n : Nat} {v : Json} (hv : Within n v) :
    lex (write l 0 v ++ ['\n']) = tokens v := by
  have hstop : Stops ['\n'] := stops_cons rfl (by decide) (by decide) (by decide)
  rw [lex, lexOnto_write l 0 n [] _ v hv hstop, lexOnto_space rfl, lexOnto]
  simp

end GoldenTrace.Json
