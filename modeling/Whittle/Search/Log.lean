import Whittle.Path

/-!
# Log

What a search reports about itself, line by line.
-/

namespace Whittle.Search

/-- A line of the log. -/
inductive LogLine where
  /-- So many candidates below a path were judged, so many of them rejected. -/
  | enumerated (produced : Nat) (path : Path) (rejected : Nat)
  | started (sort : String) (path : Path)
  | pass (number : Nat)
  | improvement (number tested : Nat)
  | finished (improvements tested passes : Nat)
  | notImproved (tested : Nat)
deriving DecidableEq

/-- The line with its level before it. -/
def LogLine.text : LogLine → String
  | enumerated n p m =>
    "DEBUG enumerated " ++ Decimal.natText n ++ " candidates at " ++ p.written ++ ", "
      ++ Decimal.natText m ++ " rejected as invalid"
  | started s p => "INFO shrinking " ++ s ++ " at path " ++ p.written
  | pass n => "DEBUG pass " ++ Decimal.natText n
  | improvement n m =>
    "DEBUG improvement " ++ Decimal.natText n ++ " after " ++ Decimal.natText m
      ++ " candidates"
  | finished n m p =>
    "INFO done: " ++ Decimal.natText n ++ " improvements, " ++ Decimal.natText m
      ++ " candidates tested over " ++ Decimal.natText p ++ " passes"
  | notImproved m =>
    "INFO could not improve: " ++ Decimal.natText m ++ " candidates tested"

end Whittle.Search
