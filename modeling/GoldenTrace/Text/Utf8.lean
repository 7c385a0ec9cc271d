/-!
# UTF-8

Files and programs hold bytes. Bytes that are no UTF-8 are read as faults, one
for every longest run that begins a character and does not complete it, and one
for every byte that begins none. Where faults are put up with, each becomes a
replacement character.
-/

namespace GoldenTrace.Text

def encode (s : String) : List UInt8 :=
  s.toList.flatMap String.utf8EncodeChar

def replacement : Char := '\uFFFD'

/-- A character that has begun: the bits so far, how many bytes are still to
come, and the range of the next. -/
structure Begun where
  bits : Nat
  missing : Nat
  low : Nat
  high : Nat

/-- The character that a byte of more than seven bits begins. The range of the
byte after it keeps out overlong forms, surrogates and what is beyond the last
code point. -/
def begin? (b : Nat) : Option Begun :=
  if 0xC2 ≤ b ∧ b ≤ 0xDF then some ⟨b - 0xC0, 1, 0x80, 0xBF⟩
  else if b = 0xE0 then some ⟨0, 2, 0xA0, 0xBF⟩
  else if b = 0xED then some ⟨0xD, 2, 0x80, 0x9F⟩
  else if 0xE1 ≤ b ∧ b ≤ 0xEF then some ⟨b - 0xE0, 2, 0x80, 0xBF⟩
  else if b = 0xF0 then some ⟨0, 3, 0x90, 0xBF⟩
  else if 0xF1 ≤ b ∧ b ≤ 0xF3 then some ⟨b - 0xF0, 3, 0x80, 0xBF⟩
  else if b = 0xF4 then some ⟨4, 3, 0x80, 0x8F⟩
  else none

/-- The bits of a character with those of its next byte. -/
def Begun.extend (s : Begun) (b : Nat) : Nat :=
  s.bits * 64 + (b - 0x80)

/-- What a byte outside of any character leaves: characters and faults that are
done, and perhaps a character that has begun. -/
def start (b : Nat) : List (Option Char) × Option Begun :=
  if b < 0x80 then ([some (Char.ofNat b)], none)
  else
    match begin? b with
    | some s => ([], some s)
    | none => ([none], none)

/-- Takes one byte. -/
def advance (state : Option Begun) (b : Nat) : List (Option Char) × Option Begun :=
  match state with
  | none => start b
  | some s =>
    if s.low ≤ b ∧ b ≤ s.high then
      if s.missing ≤ 1 then ([some (Char.ofNat (s.extend b))], none)
      else ([], some ⟨s.extend b, s.missing - 1, 0x80, 0xBF⟩)
    else (none :: (start b).1, (start b).2)

/-- The characters and faults of bytes, `done` holding what is read already in
reverse. -/
def decodeOnto (done : List (Option Char)) (state : Option Begun) :
    List UInt8 → List (Option Char)
  | [] =>
    match state with
    | none => done.reverse
    | some _ => (none :: done).reverse
  | b :: bs =>
    let (cs, next) := advance state b.toNat
    decodeOnto (cs.reverse ++ done) next bs

/-- The characters of bytes, none for each fault. -/
def decode (bs : List UInt8) : List (Option Char) :=
  decodeOnto [] none bs

def decodeLossy (bs : List UInt8) : String :=
  String.ofList ((decode bs).map (·.getD replacement))

end GoldenTrace.Text
