set_option autoImplicit false

/-!
# Text

A text is shown plain or coloured.  Colour is a wrapping: an escape sequence before the
text, the reset sequence after it, and nothing inside is changed.

Numbers are written in decimal, without a sign and without leading zeros, so that the digits
of a number give it back.  A fixed width pads with zeros at the left.

The quoted form of a text names it on one line, in double quotes: the quote and the backslash
are escaped, four control characters have a letter, every other control character is written
by its code in braces, and all else stands for itself.

As bytes a text is its UTF-8 form, character after character.  A byte below 0x80 is the whole
form of the character that has its value, so texts of such characters and byte strings are
the same thing.  The other way, bytes are read as UTF-8 and never refused: each maximal part
that begins a character and cannot be continued becomes one replacement character.  A lead
byte fixes how many continuation bytes follow and which values the first of them may take,
which is what excludes overlong forms, surrogates and codes past the last character.  Reading
is then one pass over the bytes that carries the character begun so far.
-/

namespace BytePattern

/-! ## Styles of terminal output -/

/-- Whether shown texts carry colour. -/
inductive Style where
  | plain
  | coloured
  deriving DecidableEq, Repr, Inhabited

/-- The two inks that texts are shown in. -/
inductive Ink where
  | boldRed
  | green
  deriving DecidableEq, Repr

/-- The parameters of the escape sequence that selects the ink. -/
def Ink.parameters : Ink → String
  | .boldRed => "1;31"
  | .green => "32"

/-- A text in an ink, which a plain style leaves out. -/
def Style.paint (style : Style) (ink : Ink) (text : String) : String :=
  match style with
  | .plain => text
  | .coloured => "\x1b[" ++ ink.parameters ++ "m" ++ text ++ "\x1b[0m"

@[simp] theorem Style.paint_plain (ink : Ink) (text : String) :
    Style.plain.paint ink text = text := rfl

namespace Text

/-! ## Decimal numerals -/

/-- The decimal digits of a number. -/
def decimal (n : Nat) : List Char := Nat.toDigits 10 n

/-- The decimal digits of a number, with zeros before them up to a width. -/
def padded (width n : Nat) : List Char :=
  List.replicate (width - (decimal n).length) '0' ++ decimal n

/-- The digits of a number give it back. -/
theorem ofDigitChars_decimal (n : Nat) : Nat.ofDigitChars 10 (decimal n) 0 = n :=
  Nat.ofDigitChars_ten_toDigits

/-- Two numbers never share their digits. -/
theorem decimal_injective {m n : Nat} (h : decimal m = decimal n) : m = n := by
  rw [← ofDigitChars_decimal m, ← ofDigitChars_decimal n, h]

/-! ## Quoted form -/

/-- The control characters: the first thirty-two, and those from 0x7f to 0x9f. -/
def isControl (c : Char) : Bool :=
  c.toNat < 0x20 || (0x7f ≤ c.toNat && c.toNat < 0xa0)

/-- A character inside a quoted text. -/
def quoteChar (c : Char) : List Char :=
  if c = '\t' then ['\\', 't']
  else if c = '\n' then ['\\', 'n']
  else if c = '\x0d' then ['\\', 'r']
  else if c = '\x00' then ['\\', '0']
  else if c = '\x22' ∨ c = '\\' then ['\\', c]
  else if isControl c then ['\\', 'u', '\x7b'] ++ Nat.toDigits 16 c.toNat ++ ['\x7d']
  else [c]

/-- The quoted form of a text. -/
def quoted (text : String) : String :=
  String.ofList ('\x22' :: (text.toList.flatMap quoteChar ++ ['\x22']))

/-! ## Texts as bytes -/

/-- The bytes of characters in UTF-8. -/
def encode (chars : List Char) : List UInt8 := chars.flatMap String.utf8EncodeChar

/-- The bytes of a text in UTF-8. -/
def bytes (text : String) : List UInt8 := text.toUTF8.data.toList

@[simp] theorem encode_nil : encode [] = [] := rfl

@[simp] theorem encode_append (xs ys : List Char) : encode (xs ++ ys) = encode xs ++ encode ys :=
  List.flatMap_append

theorem encode_cons (c : Char) (chars : List Char) :
    encode (c :: chars) = String.utf8EncodeChar c ++ encode chars := rfl

/-- The bytes of a text are those of its characters. -/
theorem bytes_eq_encode (text : String) : bytes text = encode text.toList := by
  have hofList : ∀ chars, bytes (String.ofList chars) = encode chars := by
    intro chars
    unfold bytes encode
    rw [String.toUTF8_eq_toByteArray, String.toByteArray_ofList, List.utf8Encode]
    simp
  rw [← hofList, String.ofList_toList]

/-- A character below 0x80 is one byte, its own value. -/
theorem encode_cons_of_lt {c : Char} (h : c.toNat < 0x80) (chars : List Char) :
    encode (c :: chars) = c.toUInt8 :: encode chars := by
  have hsize : c.utf8Size = 1 := by
    rw [Char.utf8Size_eq_one_iff, UInt32.le_iff_toNat_le]
    exact Nat.le_of_lt_succ h
  rw [encode_cons, String.utf8EncodeChar_eq_singleton hsize]
  rfl

/-- A byte below 0x80 is the whole form of its character. -/
theorem encode_ofUInt8 {b : UInt8} (h : b < 0x80) : encode [Char.ofUInt8 b] = [b] := by
  have hlt : (Char.ofUInt8 b).toNat < 0x80 := by
    show b.toUInt32.toNat < 0x80
    rw [UInt8.toNat_toUInt32]
    exact UInt8.lt_iff_toNat_lt.1 h
  have hval : (Char.ofUInt8 b).toUInt8 = b := UInt8.toUInt8_toUInt32 b
  rw [encode_cons_of_lt hlt, encode_nil, hval]

/-! ## Bytes as texts -/

/-- What stands for bytes that form no character. -/
def replacement : Char := Char.ofNat 0xfffd

/-- A character begun and not yet complete: how many continuation bytes are
missing, the bounds of the next one, and the bits read so far. -/
structure Pending where
  missing : Nat
  low : UInt8
  high : UInt8
  bits : Nat
  deriving DecidableEq, Repr

/-- What a byte at the start of a character begins: nothing, when no character
starts with it, a whole character, or a pending one. -/
inductive Lead where
  | invalid
  | whole (c : Char)
  | first (p : Pending)
  deriving DecidableEq, Repr

/-- The role of a byte at the start of a character. -/
def Lead.ofByte (b : UInt8) : Lead :=
  if b < 0x80 then .whole (Char.ofUInt8 b)
  else if b < 0xc2 then .invalid
  else if b < 0xe0 then .first ⟨1, 0x80, 0xbf, b.toNat - 0xc0⟩
  else if b < 0xf0 then
    .first ⟨2, if b = 0xe0 then 0xa0 else 0x80, if b = 0xed then 0x9f else 0xbf, b.toNat - 0xe0⟩
  else if b < 0xf5 then
    .first ⟨3, if b = 0xf0 then 0x90 else 0x80, if b = 0xf4 then 0x8f else 0xbf, b.toNat - 0xf0⟩
  else .invalid

/-- The byte continues the pending character. -/
def Pending.Admits (p : Pending) (b : UInt8) : Prop := p.low ≤ b ∧ b ≤ p.high

instance (p : Pending) (b : UInt8) : Decidable (p.Admits b) :=
  inferInstanceAs (Decidable (_ ∧ _))

/-- The pending character with the six bits of a continuation byte added. -/
def Pending.add (p : Pending) (b : UInt8) : Pending :=
  ⟨p.missing - 1, 0x80, 0xbf, p.bits * 64 + (b.toNat - 0x80)⟩

/-- What a byte at the start of a character completes and begins. -/
def begin (b : UInt8) : List Char × Option Pending :=
  match Lead.ofByte b with
  | .invalid => ([replacement], none)
  | .whole c => ([c], none)
  | .first p => ([], some p)

/-- What one more byte completes and begins, after the pending character if
there is one.  A byte that cannot continue it ends it and starts anew. -/
def advance : Option Pending → UInt8 → List Char × Option Pending
  | none, b => begin b
  | some p, b =>
    if p.Admits b then
      if p.missing = 1 then ([Char.ofNat (p.add b).bits], none) else ([], some (p.add b))
    else (replacement :: (begin b).1, (begin b).2)

/-- Reads bytes after a pending character, if there is one. -/
def decodeFrom : Option Pending → List UInt8 → List Char
  | none, [] => []
  | some _, [] => [replacement]
  | p, b :: rest => (advance p b).1 ++ decodeFrom (advance p b).2 rest

/-- The text of the bytes, with a replacement character for each maximal part
that is not UTF-8. -/
def lossy (bytes : List UInt8) : String := String.ofList (decodeFrom none bytes)

end Text

end BytePattern
