import Whittle.Decimal.Numeral
import Whittle.Language
import Whittle.Text.Quoted

/-!
# The written form of a tree

How messages show a value: a node as its kind applied to its named fields, a list
in parentheses with a comma after a single item, a text in quotes.
-/

namespace Whittle

/-- Items in parentheses; a single item is followed by a comma. -/
def parenthesized : List String → String
  | [s] => "(" ++ s ++ ",)"
  | ss => "(" ++ ", ".intercalate ss ++ ")"

/-- Names and values written as `name=value`, as far as there are both. -/
def labelled (names values : List String) : List String :=
  List.zipWith (fun n v => n ++ "=" ++ v) names values

namespace Tree

mutual
/-- The written form of a value. -/
def written : Tree → String
  | .absent => "None"
  | .bool b => if b then "True" else "False"
  | .int i => Decimal.intText i
  | .float x => Decimal.doubleText Decimal.plainStyle x
  | .str s => Text.quoted s
  | .list items => parenthesized (writtenAll items)
  | .node k fields =>
    k.name ++ "(" ++ ", ".intercalate (labelled k.fieldNames (writtenAll fields)) ++ ")"

/-- The written forms of several values. -/
def writtenAll : List Tree → List String
  | [] => []
  | t :: ts => written t :: writtenAll ts
end

/-- A value as it appears inside a sentence: a text without quotes, anything else in
its written form. -/
def plain : Tree → String
  | .str s => s
  | t => t.written

/-- What sort of value a tree is: the kind of a node, or the word for any other value. -/
def sort : Tree → String
  | .absent => "NoneType"
  | .bool _ => "bool"
  | .int _ => "int"
  | .float _ => "float"
  | .str _ => "str"
  | .list _ => "tuple"
  | .node k _ => k.name

end Tree

end Whittle
