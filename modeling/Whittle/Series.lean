/-!
# Series

A finite series of items that may break off: after its items it is either at its end
or shows a fault. Of two series joined together the second one counts only if the
first does not break off.
-/

namespace Whittle

/-- Items in order, and the fault that the series breaks off with, if it does. -/
structure Series (ε α : Type) where
  items : List α
  fault : Option ε

namespace Series

variable {ε α β : Type}

/-- The series without items. -/
def empty : Series ε α := ⟨[], none⟩

/-- The series of the given items. -/
def ofList (items : List α) : Series ε α := ⟨items, none⟩

/-- The series that breaks off at once. -/
def broken (e : ε) : Series ε α := ⟨[], some e⟩

/-- The series of one item, if there is one. -/
def ofExcept : Except ε α → Series ε α
  | .ok a => ⟨[a], none⟩
  | .error e => broken e

/-- One series after the other. -/
def append (s t : Series ε α) : Series ε α :=
  match s.fault with
  | some _ => s
  | none => ⟨s.items ++ t.items, t.fault⟩

instance : Append (Series ε α) := ⟨append⟩

/-- An item before a series. -/
def cons (a : α) (s : Series ε α) : Series ε α := ⟨a :: s.items, s.fault⟩

/-- Several series, one after the other. -/
def concat : List (Series ε α) → Series ε α
  | [] => empty
  | s :: ss => s ++ concat ss

/-- The series of the images of items. -/
def map (f : α → β) (s : Series ε α) : Series ε β := ⟨s.items.map f, s.fault⟩

/-- Images of items in order, up to the first that does not exist. -/
def mapList (f : α → Except ε β) : List α → Series ε β
  | [] => empty
  | a :: as =>
    match f a with
    | .ok b => cons b (mapList f as)
    | .error e => broken e

/-- Images of the items of a series, up to the first that does not exist. -/
def mapExcept (f : α → Except ε β) (s : Series ε α) : Series ε β :=
  mapList f s.items ++ ⟨[], s.fault⟩

@[simp] theorem items_append_of_whole {s t : Series ε α} (h : s.fault = none) :
    (s ++ t).items = s.items ++ t.items := by
  show (append s t).items = _
  simp [append, h]

@[simp] theorem fault_append_of_whole {s t : Series ε α} (h : s.fault = none) :
    (s ++ t).fault = t.fault := by
  show (append s t).fault = _
  simp [append, h]

end Series

end Whittle
