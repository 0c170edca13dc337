import Whittle.Text.Half
import Whittle.Text.Printable

/-!
# Quoted texts

How messages show a text: between single quotes, or between double quotes if it
has a single quote and no double one. The backslash and the quote itself are
escaped, and every character that is not printable is written as an escape.
-/

namespace Whittle.Text

/-- The single quote. -/
def singleQuote : Char := Char.ofNat 0x27

/-- The double quote. -/
def doubleQuote : Char := Char.ofNat 0x22

/-- The backslash. -/
def backslash : Char := Char.ofNat 0x5c

/-- A hexadecimal digit in lower case. -/
def hexDigit (n : Nat) : Char :=
  if n < 10 then Char.ofNat ('0'.toNat + n) else Char.ofNat ('a'.toNat + (n - 10))

/-- The last `width` hexadecimal digits of a number. -/
def hexDigits : (width : Nat) → Nat → List Char
  | 0, _ => []
  | w + 1, n => hexDigits w (n / 16) ++ [hexDigit (n % 16)]

/-- The numeric escape of a character, or of the lone unit that it is kept for, as short as
its code point allows. -/
def numericEscape (c : Char) : List Char :=
  let n := (halfUnit? c).getD c.toNat
  if n < 0x100 then backslash :: 'x' :: hexDigits 2 n
  else if n < 0x10000 then backslash :: 'u' :: hexDigits 4 n
  else backslash :: 'U' :: hexDigits 8 n

/-- A character inside a text quoted with `quote`. -/
def quotedChar (quote : Char) (c : Char) : List Char :=
  if c == quote || c == backslash then [backslash, c]
  else if c == '\n' then [backslash, 'n']
  else if c == '\r' then [backslash, 'r']
  else if c == '\t' then [backslash, 't']
  else if isPrintable c then [c]
  else numericEscape c

/-- The quote that a text is shown with. -/
def quoteFor (s : String) : Char :=
  if s.toList.contains singleQuote && !s.toList.contains doubleQuote then doubleQuote
  else singleQuote

/-- A text between quotes. -/
def quoted (s : String) : String :=
  let q := quoteFor s
  String.ofList (q :: s.toList.flatMap (quotedChar q) ++ [q])

/-- Several texts in brackets. -/
def quotedList (ss : List String) : String :=
  "[" ++ ", ".intercalate (ss.map quoted) ++ "]"

end Whittle.Text
