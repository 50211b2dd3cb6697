/-!
# Locations: where in a text something stands

A reader of a text counts lines and columns, a program counts bytes. `Location` is the first
count and `Position` is both. There is one fact to keep in mind about either:

> **a place is a function of the characters before it** — nothing else moves it.

So the only way to obtain a later place is `Position.advance`, over exactly the characters that
were passed. Everything that scans text (`EL.Cursor`) moves by it and by nothing else.
-/

set_option autoImplicit false

namespace EL

/-- A line and a column. Both are counted from 1 in a text that stands alone; a text embedded in
    a larger file may start anywhere. -/
structure Location where
  /-- How many lines have begun. -/
  line : Nat
  /-- One more than the number of characters before this one on its line. -/
  column : Nat
deriving DecidableEq

namespace Location

/-- Where a text of its own begins. -/
def origin : Location := ⟨1, 1⟩

instance : Inhabited Location := ⟨origin⟩

/-- The place after one character: a line feed begins a line, and every other character, a
    carriage return or a tab included, takes one column. -/
def next (l : Location) (c : Char) : Location :=
  if c = '\n' then ⟨l.line + 1, 1⟩ else ⟨l.line, l.column + 1⟩

/-- The place after a run of characters. -/
def advance (l : Location) (cs : List Char) : Location := cs.foldl next l

/-- Earlier in the text: on an earlier line, or further left on the same one. -/
instance : LT Location := ⟨fun a b => a.line < b.line ∨ (a.line = b.line ∧ a.column < b.column)⟩

instance (a b : Location) : Decidable (a < b) :=
  inferInstanceAs (Decidable (a.line < b.line ∨ (a.line = b.line ∧ a.column < b.column)))

instance : Ord Location := ⟨fun a b => if a < b then .lt else if b < a then .gt else .eq⟩

/-- The wording of a place in messages. -/
def describe (l : Location) : String := s!"line {l.line}, column {l.column}"

@[simp] theorem advance_cons (l : Location) (c : Char) (cs : List Char) :
    l.advance (c :: cs) = (l.next c).advance cs := rfl

/-- Passing two runs one after the other is passing their concatenation. -/
theorem advance_append (l : Location) (a b : List Char) :
    l.advance (a ++ b) = (l.advance a).advance b := List.foldl_append

end Location

/-- How many bytes a run of characters takes in UTF-8. -/
def byteLength : List Char → Nat
  | [] => 0
  | c :: cs => c.utf8Size + byteLength cs

@[simp] theorem byteLength_nil : byteLength [] = 0 := rfl

@[simp] theorem byteLength_cons (c : Char) (cs : List Char) :
    byteLength (c :: cs) = c.utf8Size + byteLength cs := rfl

theorem byteLength_append (a b : List Char) :
    byteLength (a ++ b) = byteLength a + byteLength b := by
  induction a with
  | nil => simp
  | cons c cs ih => simp [ih, Nat.add_assoc]

/-- A place in a text, counted both ways. -/
structure Position where
  /-- Bytes of UTF-8 before this place. -/
  offset : Nat
  /-- Lines and columns before this place. -/
  location : Location
deriving DecidableEq

namespace Position

/-- The start of a text whose first character stands at `l`. -/
def start (l : Location) : Position := ⟨0, l⟩

instance : Inhabited Position := ⟨start .origin⟩

/-- The place after a run of characters. -/
def advance (p : Position) (cs : List Char) : Position :=
  ⟨p.offset + byteLength cs, p.location.advance cs⟩

theorem advance_append (p : Position) (a b : List Char) :
    p.advance (a ++ b) = (p.advance a).advance b := by
  simp [advance, byteLength_append, Location.advance_append, Nat.add_assoc]

end Position

end EL
