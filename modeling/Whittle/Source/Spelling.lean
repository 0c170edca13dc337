import Whittle.Decimal.Numeral
import Whittle.Source.Piece
import Whittle.Text.Blank
import Whittle.Text.Escaped
import Whittle.Text.Numeral
import Whittle.Validity.Rules

/-!
# Spelling

The parts of a program's text that are not put together from other texts: literals,
property names, separators, and the tests on texts that decide about spaces and
parentheses.
-/

namespace Whittle.Source

/-- Text between braces. -/
def braced (s : String) : String := "\x7b" ++ s ++ "\x7d"

/-- Text between parentheses. -/
def inParens (s : String) : String := "(" ++ s ++ ")"

/-- Texts with commas between them. -/
def commaList (ss : List String) : String := ",".intercalate ss

/-- Statements one after another, semicolons only between those that need them. -/
def joined : List (String × Bool) → String
  | [] => ""
  | [(t, _)] => t
  | (t, semicolon) :: rest => t ++ (if semicolon then ";" else "") ++ joined rest

/-! ## Tests on texts -/

/-- What follows a word at the beginning of a text. -/
def afterWord? : (word text : List Char) → Option (List Char)
  | [], cs => some cs
  | _ :: _, [] => none
  | w :: ws, c :: cs => if w = c then afterWord? ws cs else none

/-- Whether a text begins with a word that does not go on. -/
def beginsWithWord (word : String) (cs : List Char) : Bool :=
  match afterWord? word.toList cs with
  | some (c :: _) => !Text.isWordChar c
  | some [] => true
  | none => false

/-- Whether a text begins with a word, at least `least` characters of white space, and
something that satisfies a test. -/
def beginsSpaced (word : String) (least : Nat) (rest : List Char → Bool) (cs : List Char) :
    Bool :=
  match afterWord? word.toList cs with
  | some cs =>
    decide (least ≤ (cs.takeWhile Text.isBlank).length) && rest (cs.dropWhile Text.isBlank)
  | none => false

/-- Whether a text begins with a character. -/
def beginsWith (c : Char) (cs : List Char) : Bool :=
  cs.head? == some c

/-- Whether the text of an expression, where a statement is expected, would be read as a
function, a class, a block or a declaration. -/
def beginsLikeStatement (text : String) : Bool :=
  let cs := text.toList
  beginsWithWord "function" cs || beginsWithWord "class" cs
    || beginsSpaced "async" 1 (beginsWithWord "function") cs
    || beginsWith '\x7b' cs
    || beginsSpaced "let" 0 (beginsWith '[') cs

/-- The space that keeps a text apart from the word before it. -/
def spaceBefore (text : String) : String :=
  match text.toList with
  | [] => " "
  | c :: _ =>
    if Text.isAlphanumeric c || c == '_' || c == '$' || c == Text.backslash then " " else ""

/-! ## Literals and names -/

/-- A number: a double that is whole and below ten to the twenty-first without a point,
anything else in its own written form. -/
def numeral : Tree → String
  | .float x =>
    match x.toInt? with
    | some i => if i.natAbs < Nat.pow 10 21 then Decimal.intText i
      else Decimal.doubleText Decimal.plainStyle x
    | none => Decimal.doubleText Decimal.plainStyle x
  | v => v.plain

/-- Whether a property name may stand without quotes: it is spelled like an identifier,
or is a number without leading zeros. -/
def isBareName (s : String) : Bool :=
  Rules.isIdentifierName s || Text.allDigits s && (s == "0" || !beginsWith '0' s.toList)

/-- Whether a double quote is among the characters of a text, or the items of a list. -/
def hasDoubleQuote : Tree → Bool
  | .str s => s.toList.contains Text.doubleQuote
  | .list items => items.any (·.isText (String.singleton Text.doubleQuote))
  | _ => false

/-- A directive between quotes, single ones if there are double ones in it. -/
def directiveText (raw : Tree) : String :=
  if hasDoubleQuote raw then "\x27" ++ raw.plain ++ "\x27" else "\"" ++ raw.plain ++ "\""

/-- The letters of the flags of a regular expression, with their fields. -/
def patternFlags : List (String × String) := [
  ("is_global", "g"), ("ignore_case", "i"), ("multi_line", "m"), ("dot_all", "s"),
  ("unicode", "u"), ("sticky", "y")]

end Whittle.Source
