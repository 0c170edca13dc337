import Whittle.Decimal.Numeral
import Whittle.Grammar.PositionType
import Whittle.Plain
import Whittle.Text.Escaped

/-!
# Writing JSON

A value is written on one line, or with every part on a line of its own under an
indentation. Keys keep their order or are sorted by characters; texts keep their
characters or are reduced to ASCII.
-/

namespace Whittle.Json

/-- How a value is laid out. -/
structure Layout where
  /-- The indentation of one level, if the parts stand on lines of their own. -/
  indent : Option String
  itemSeparator : String
  keySeparator : String
  sortKeys : Bool
  asciiOnly : Bool
  /-- Whether numbers that are not finite may be written. -/
  allowNonFinite : Bool

/-- The ways to ask for an indentation. -/
inductive Indentation where
  /-- Everything stands on one line. -/
  | none
  /-- A number of spaces on each level; a negative number counts as zero. -/
  | width (n : Int)
  /-- A text on each level. -/
  | unit (s : String)

namespace Layout

/-- One line, in ASCII, a space after commas and colons. -/
def line : Layout where
  indent := none
  itemSeparator := ", "
  keySeparator := ": "
  sortKeys := false
  asciiOnly := true
  allowNonFinite := true

/-- What stands before a part on a level: a line break and the indentation, or nothing
if everything stands on one line. -/
def lineStart (l : Layout) (level : Nat) : String :=
  match l.indent with
  | none => ""
  | some unit => "\n" ++ String.join (List.replicate level unit)

/-- Parts between brackets. -/
def bracketed (l : Layout) (level : Nat) (left right : String) (items : List String) :
    String :=
  match items with
  | [] => left ++ right
  | _ => left ++ l.lineStart (level + 1)
      ++ (l.itemSeparator ++ l.lineStart (level + 1)).intercalate items
      ++ l.lineStart level ++ right

end Layout

/-- Doubles in JSON, with words for what is not finite. -/
def numeralStyle : Decimal.NumeralStyle :=
  { Decimal.plainStyle with notANumber := "NaN", infinite := "Infinity" }

mutual
/-- A value at a level of the layout. -/
def write (l : Layout) (level : Nat) : Plain → String
  | .null => "null"
  | .bool b => if b then "true" else "false"
  | .int i => Decimal.intText i
  | .float x => Decimal.doubleText numeralStyle x
  | .str s => Text.escaped l.asciiOnly s
  | .list items => l.bracketed level "[" "]" (writeItems l (level + 1) items)
  | .object es =>
    let entries := writeEntries l (level + 1) es
    let entries := if l.sortKeys then
      entries.mergeSort fun a b => decide (a.1 ≤ b.1) else entries
    l.bracketed level "\x7b" "\x7d" (entries.map (·.2))

def writeItems (l : Layout) (level : Nat) : List Plain → List String
  | [] => []
  | v :: vs => write l level v :: writeItems l level vs

/-- Entries as they are written, each with its key. -/
def writeEntries (l : Layout) (level : Nat) : List (String × Plain) → List (String × String)
  | [] => []
  | (k, v) :: es =>
    (k, Text.escaped l.asciiOnly k ++ l.keySeparator ++ write l level v)
      :: writeEntries l level es
end

/-- The text of a value, unless it has numbers that the layout does not allow. -/
def write? (l : Layout) (v : Plain) : Option String :=
  if l.allowNonFinite || v.allFinite then some (write l 0 v) else none

end Whittle.Json
