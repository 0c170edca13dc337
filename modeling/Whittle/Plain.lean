import Whittle.Double
import Whittle.Grammar.Table

/-!
# Plain data

Data without types of its own: truth values, numbers, texts, lists, and objects
with named entries in order.
-/

namespace Whittle

/-- Plain data. -/
inductive Plain where
  | null
  | bool (value : Bool)
  | int (value : Int)
  | float (value : Double)
  | str (value : String)
  | list (items : List Plain)
  | object (entries : List (String × Plain))

namespace Plain

/-- The entry of an object with a name. -/
def entry? (name : String) : Plain → Option Plain
  | object es => Grammar.Entries.get? name es
  | _ => none

mutual
/-- Whether every number is finite. -/
def allFinite : Plain → Bool
  | float x => x.isFinite
  | list items => allFiniteItems items
  | object es => allFiniteEntries es
  | _ => true

def allFiniteItems : List Plain → Bool
  | [] => true
  | v :: vs => allFinite v && allFiniteItems vs

def allFiniteEntries : List (String × Plain) → Bool
  | [] => true
  | (_, v) :: es => allFinite v && allFiniteEntries es
end

end Plain

end Whittle
