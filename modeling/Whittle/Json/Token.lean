import Whittle.Decimal.Numeral
import Whittle.Plain
import Whittle.Text.Escaped

/-!
# JSON tokens

A text is cut into tokens character by character. Inside a text the state holds
what has been read of it, elsewhere the run of characters that will be a number or
a word. White space is the space, the tab, and the two line breaks; it may stand
between any two tokens. Besides the numbers of the standard, *NaN* and the two
infinities are read.
-/

namespace Whittle.Json

/-- A token. A text is kept apart from other values because it may be a key. -/
inductive Token where
  | openList
  | closeList
  | openObject
  | closeObject
  | comma
  | colon
  | text (s : String)
  | scalar (v : Plain)

/-- Whether a character may stand between tokens. -/
def isSpace (c : Char) : Bool :=
  c == ' ' || c == '\t' || c == '\n' || c == '\r'

/-- Whether a character belongs to a number or a word. -/
def isBare (c : Char) : Bool :=
  c.isAlphanum || c == '+' || c == '-' || c == '.'

/-- The token of a punctuation mark. -/
def punctuation? (c : Char) : Option Token :=
  if c == '[' then some .openList
  else if c == ']' then some .closeList
  else if c == '\x7b' then some .openObject
  else if c == '\x7d' then some .closeObject
  else if c == ',' then some .comma
  else if c == ':' then some .colon
  else none

/-! ## Numbers and words -/

/-- The value of a run of digits with an optional sign. -/
def exponent? : List Char → Option Int
  | '-' :: ds => if !ds.isEmpty && ds.all Char.isDigit then
      some (-(Decimal.natOfDigits ds : Int)) else none
  | '+' :: ds => if !ds.isEmpty && ds.all Char.isDigit then
      some (Decimal.natOfDigits ds) else none
  | ds => if !ds.isEmpty && ds.all Char.isDigit then
      some (Decimal.natOfDigits ds) else none

/-- The double with the given digits before and after the point, and an exponent. -/
def fraction (negative : Bool) (whole frac : List Char) (e : Int) : Plain :=
  .float (Double.ofDecimal negative (Decimal.natOfDigits (whole ++ frac)) (e - frac.length))

/-- What follows the digits before the point. -/
def afterWhole? (negative : Bool) (whole : List Char) : List Char → Option Plain
  | [] =>
    let n : Int := Decimal.natOfDigits whole
    some (.int (if negative then -n else n))
  | '.' :: rest =>
    let frac := rest.takeWhile Char.isDigit
    if frac.isEmpty then none
    else match rest.dropWhile Char.isDigit with
      | [] => some (fraction negative whole frac 0)
      | 'e' :: e => (exponent? e).map (fraction negative whole frac)
      | 'E' :: e => (exponent? e).map (fraction negative whole frac)
      | _ => none
  | 'e' :: e => (exponent? e).map (fraction negative whole [])
  | 'E' :: e => (exponent? e).map (fraction negative whole [])
  | _ => none

/-- A number without its sign. The digits before the point are a single zero or do
not begin with a zero. -/
def unsigned? (negative : Bool) (cs : List Char) : Option Plain :=
  match cs.takeWhile Char.isDigit with
  | [] => none
  | '0' :: _ :: _ => none
  | whole => afterWhole? negative whole (cs.dropWhile Char.isDigit)

/-- A number. A number without fraction and exponent is whole. -/
def number? : List Char → Option Plain
  | '-' :: cs => unsigned? true cs
  | cs => unsigned? false cs

/-- The value that a number or a word denotes. -/
def bare? (cs : List Char) : Option Plain :=
  match String.ofList cs with
  | "null" => some .null
  | "true" => some (.bool true)
  | "false" => some (.bool false)
  | "NaN" => some (.float Double.nan)
  | "Infinity" => some (.float (Double.infinity false))
  | "-Infinity" => some (.float (Double.infinity true))
  | _ => number? cs

/-! ## Texts -/

/-- The value of a hexadecimal digit. -/
def hexValue? (c : Char) : Option Nat :=
  if c.isDigit then some (c.toNat - '0'.toNat)
  else if 'a' ≤ c ∧ c ≤ 'f' then some (c.toNat - 'a'.toNat + 10)
  else if 'A' ≤ c ∧ c ≤ 'F' then some (c.toNat - 'A'.toNat + 10)
  else none

/-- The character of a short escape. -/
def unescape? (c : Char) : Option Char :=
  if c == Text.doubleQuote || c == Text.backslash || c == '/' then some c
  else if c == 'n' then some '\n'
  else if c == 'r' then some '\r'
  else if c == 't' then some '\t'
  else if c == 'f' then some (Char.ofNat 0x0c)
  else if c == 'b' then some (Char.ofNat 0x08)
  else none

/-- What has been read of a text: its characters, last first, and the upper half of
a pair of units that still waits for the lower one. -/
structure Partial where
  chars : List Char
  upper : Option Nat

namespace Partial

/-- The characters read, last first, with the upper half that is left alone. -/
def settled (p : Partial) : List Char :=
  match p.upper with
  | none => p.chars
  | some n => Text.half n :: p.chars

/-- One more character. -/
def push (p : Partial) (c : Char) : Partial := ⟨c :: p.settled, none⟩

/-- One more unit of sixteen bits. -/
def pushUnit (p : Partial) (n : Nat) : Partial :=
  if 0xd800 ≤ n ∧ n < 0xdc00 then ⟨p.settled, some n⟩
  else if 0xdc00 ≤ n ∧ n < 0xe000 then
    match p.upper with
    | some h => ⟨Char.ofNat (0x10000 + (h - 0xd800) * 0x400 + (n - 0xdc00)) :: p.chars, none⟩
    | none => ⟨Text.half n :: p.chars, none⟩
  else p.push (Char.ofNat n)

/-- The text read. -/
def text (p : Partial) : String := String.ofList p.settled.reverse

end Partial

/-! ## Cutting -/

/-- Where the reader of characters stands. -/
inductive Cursor where
  | between
  | bare (chars : List Char)
  | text (read : Partial)
  | escape (read : Partial)
  | unit (read : Partial) (digits : Nat) (value : Nat)

/-- A character outside texts, numbers and words. -/
def fresh (tokens : List Token) (c : Char) : Option (List Token × Cursor) :=
  if isSpace c then some (tokens, .between)
  else if c == Text.doubleQuote then some (tokens, .text ⟨[], none⟩)
  else if isBare c then some (tokens, .bare [c])
  else (punctuation? c).map fun t => (t :: tokens, .between)

/-- One character more. The tokens are collected last first. -/
def advance (tokens : List Token) (c : Char) : Cursor → Option (List Token × Cursor)
  | .between => fresh tokens c
  | .bare cs =>
    if isBare c then some (tokens, .bare (c :: cs))
    else do fresh (.scalar (← bare? cs.reverse) :: tokens) c
  | .text p =>
    if c == Text.doubleQuote then some (.text p.text :: tokens, .between)
    else if c == Text.backslash then some (tokens, .escape p)
    else if c.toNat < 0x20 then none
    else some (tokens, .text (p.push c))
  | .escape p =>
    if c == 'u' then some (tokens, .unit p 0 0)
    else (unescape? c).map fun e => (tokens, .text (p.push e))
  | .unit p n v => do
    let v := 16 * v + (← hexValue? c)
    if n = 3 then some (tokens, .text (p.pushUnit v)) else some (tokens, .unit p (n + 1) v)

/-- The tokens of the remaining characters. -/
def tokensFrom (tokens : List Token) (cursor : Cursor) : List Char → Option (List Token)
  | [] =>
    match cursor with
    | .between => some tokens.reverse
    | .bare cs => (bare? cs.reverse).map fun v => (Token.scalar v :: tokens).reverse
    | _ => none
  | c :: cs =>
    match advance tokens c cursor with
    | some (tokens, cursor) => tokensFrom tokens cursor cs
    | none => none

/-- The tokens of a text, if it can be cut into tokens. -/
def tokens? (s : String) : Option (List Token) :=
  tokensFrom [] .between s.toList

end Whittle.Json
