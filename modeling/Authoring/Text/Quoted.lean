import Authoring.Text.Printable

/-!
# Quoted text

The two written forms of a text.

**In messages** a text stands between quotes, each unprintable character written by its code point
(`quote`). The quotes are single, unless the text holds a single quote and no double one.

**In the text of a value** it stands between double quotes, and only what would end or break the line is
escaped: the double quote, the backslash and the controls below the space (`quoteDouble`).
-/

namespace Authoring.Text

/-- The lower-case hexadecimal digit of a number below sixteen. -/
def hexDigit (n : Nat) : Char :=
  if n < 10 then Char.ofNat (48 + n) else Char.ofNat (87 + n)

/-- The last `width` hexadecimal digits of a number, the highest first. -/
def hexDigits : Nat → Nat → List Char
  | 0, _ => []
  | width + 1, n => hexDigits width (n / 16) ++ [hexDigit (n % 16)]

/-- The single quote. -/
def singleMark : Char := Char.ofNat 39

/-- The double quote. -/
def doubleMark : Char := Char.ofNat 34

/-- The backslash, which opens every escape. -/
def escapeMark : Char := Char.ofNat 92

/-- A code point by its shortest escape: two, four or eight digits. -/
def codePoint (n : Nat) : List Char :=
  if n < 0x100 then escapeMark :: 'x' :: hexDigits 2 n
  else if n < 0x10000 then escapeMark :: 'u' :: hexDigits 4 n
  else escapeMark :: 'U' :: hexDigits 8 n

/-- One character between the quotes of a message. -/
def escape (mark c : Char) : List Char :=
  if c = mark ∨ c = escapeMark then [escapeMark, c]
  else if c = '\t' then [escapeMark, 't']
  else if c = '\n' then [escapeMark, 'n']
  else if c = '\r' then [escapeMark, 'r']
  else if isPrintable c then [c]
  else codePoint c.toNat

/-- The quotes of a message: single, unless the text holds a single quote and no double one. -/
def markFor (s : List Char) : Char :=
  if s.contains singleMark && !s.contains doubleMark then doubleMark else singleMark

/-- A text as messages show it. -/
def quote (s : String) : String :=
  let mark := markFor s.toList
  String.ofList (mark :: s.toList.flatMap (escape mark) ++ [mark])

/-- One character between double quotes. -/
def escapeDouble (c : Char) : List Char :=
  if c = doubleMark ∨ c = escapeMark then [escapeMark, c]
  else if c = '\n' then [escapeMark, 'n']
  else if c = '\r' then [escapeMark, 'r']
  else if c = '\t' then [escapeMark, 't']
  else if c.toNat = 8 then [escapeMark, 'b']
  else if c.toNat = 12 then [escapeMark, 'f']
  else if c.toNat < 0x20 then escapeMark :: 'u' :: hexDigits 4 c.toNat
  else [c]

/-- A text between double quotes, on one line. -/
def quoteDouble (s : String) : String :=
  String.ofList (doubleMark :: s.toList.flatMap escapeDouble ++ [doubleMark])

/-- Nothing of a text is lost or added where every character is printable and no quote or backslash. -/
theorem escape_plain {mark c : Char} (h : isPrintable c = true) (hm : c ≠ mark) (he : c ≠ escapeMark) :
    escape mark c = [c] := by
  have ht : c ≠ '\t' := by rintro rfl; revert h; decide
  have hn : c ≠ '\n' := by rintro rfl; revert h; decide
  have hr : c ≠ '\r' := by rintro rfl; revert h; decide
  simp [escape, hm, he, ht, hn, hr, h]

end Authoring.Text
