import EL.Lexeme

/-!
# Cursors: reading tokens one after the other

A cursor stands between two characters of a text. It holds what is left of the text and its own
place, and **nothing else of the text**: what was read before cannot influence what is read next,
except through the place. There is no separate pass over the text. `Cursor.next` reads one token
and moves on, `Cursor.peek` reads the same token and stays; a cursor is a value, so to remember a
place is to keep the cursor.

A cursor also moves when no token can be read: past the gap, and over as much of the text as it
took to see that no token begins there. Reading can go on from that place.
-/

set_option autoImplicit false

namespace EL

/-- A place between two characters of a text. -/
structure Cursor where
  /-- The text after this place. -/
  rest : List Char
  /-- The place itself. -/
  position : Position
deriving DecidableEq

namespace Cursor

/-- The start of a text whose first character stands at `l`. -/
def start (text : List Char) (l : Location) : Cursor := ⟨text, .start l⟩

/-- The start of a text, by default one that stands alone. -/
def ofText (text : String) (l : Location := .origin) : Cursor := start text.toList l

/-- Where the cursor stands, in lines and columns. -/
def location (c : Cursor) : Location := c.position.location

/-- How many bytes precede the cursor. -/
def offset (c : Cursor) : Nat := c.position.offset

/-- The text after the cursor. -/
def remainder (c : Cursor) : String := String.ofList c.rest

/-- The cursor after a run of characters that the rest begins with. -/
def pass (c : Cursor) (cs : List Char) : Cursor :=
  ⟨c.rest.drop cs.length, c.position.advance cs⟩

/-- The cursor before the next lexeme. -/
def skipGap (c : Cursor) : Cursor := c.pass (gap c.rest)

theorem skipGap_of_gap {c : Cursor} (h : gap c.rest = []) : c.skipGap = c := by
  rw [skipGap, h]
  rfl

/-- Reads a token at a place where no gap begins. -/
def readHere (c : Cursor) : Except ParseError Token × Cursor :=
  match c.rest with
  | [] => (.ok ⟨.endOfInput, "", c.position⟩, c)
  | first :: r =>
    match Lexeme.read first r with
    | .ok x => (.ok ⟨x.kind, String.ofList x.text, c.position⟩, c.pass x.spelling)
    | .error misfit => (.error ⟨misfit.cause, c.location, none⟩, c.pass misfit.passed)

/-- Reads the next token. At the end of the text that is the end of input, as often as it is asked
    for. -/
def next (c : Cursor) : Except ParseError Token × Cursor := c.skipGap.readHere

/-- The next token, without moving. -/
def peek (c : Cursor) : Except ParseError Token := c.next.1

/-! ## Progress -/

theorem length_rest_pass (c : Cursor) (cs : List Char) :
    (c.pass cs).rest.length = c.rest.length - cs.length := List.length_drop

theorem length_rest_skipGap_le (c : Cursor) : c.skipGap.rest.length ≤ c.rest.length := by
  rw [skipGap, length_rest_pass]
  exact Nat.sub_le _ _

theorem length_rest_readHere_lt {c c' : Cursor} {t : Token} (h : c.readHere = (.ok t, c'))
    (ht : t.kind ≠ .endOfInput) : c'.rest.length < c.rest.length := by
  unfold readHere at h
  split at h
  · obtain ⟨rfl, rfl⟩ : _ = t ∧ _ = c' := by simpa using h
    exact absurd rfl ht
  · rename_i first r hr
    split at h
    · rename_i x hx
      obtain ⟨-, rfl⟩ : _ ∧ _ = c' := by simpa using h
      have hlen : c.rest.length = r.length + 1 := by rw [hr]; rfl
      have hpos : 0 < x.spelling.length :=
        List.length_pos_iff.2 (Lexeme.read_spelling_ne_nil hx)
      rw [length_rest_pass]
      omega
    · simp at h

/-- **Every token but the end of input shortens the rest.** Scanning a text therefore ends. -/
theorem length_rest_next_lt {c c' : Cursor} {t : Token} (h : c.next = (.ok t, c'))
    (ht : t.kind ≠ .endOfInput) : c'.rest.length < c.rest.length :=
  Nat.lt_of_lt_of_le (length_rest_readHere_lt h ht) (length_rest_skipGap_le c)

end Cursor

end EL
