import Whittle.Text.Quoted

/-!
# Escaped texts

A text between double quotes, as JSON and JavaScript read it. The quote, the
backslash and the control characters are escaped, and on request everything
outside ASCII, by its units of sixteen bits.
-/

namespace Whittle.Text

/-- The escape of a unit of sixteen bits. -/
def unitEscape (n : Nat) : List Char :=
  backslash :: 'u' :: hexDigits 4 n

/-- The escape of a character by one unit, or by two beyond the first plane. -/
def unicodeEscape (c : Char) : List Char :=
  let n := c.toNat
  if n < 0x10000 then unitEscape n
  else
    let m := n - 0x10000
    unitEscape (0xd800 + m / 0x400) ++ unitEscape (0xdc00 + m % 0x400)

/-- The letter of a short escape. -/
def shortEscape? (c : Char) : Option Char :=
  if c == doubleQuote || c == backslash then some c
  else if c == '\n' then some 'n'
  else if c == '\r' then some 'r'
  else if c == '\t' then some 't'
  else if c.toNat == 0x0c then some 'f'
  else if c.toNat == 0x08 then some 'b'
  else none

/-- A character inside an escaped text. -/
def escapedChar (asciiOnly : Bool) (c : Char) : List Char :=
  match shortEscape? c with
  | some e => [backslash, e]
  | none =>
    if c.toNat < 0x20 || asciiOnly && 0x7e < c.toNat then unicodeEscape c else [c]

/-- A text between double quotes. -/
def escaped (asciiOnly : Bool) (s : String) : String :=
  String.ofList (doubleQuote :: s.toList.flatMap (escapedChar asciiOnly) ++ [doubleQuote])

end Whittle.Text
