import EL.Parser.Run

/-!
# Sessions: a host at work on one text

A host that embeds EL in a language of its own moves back and forth between the two: it reads a few
tokens, remembers a place, lets an expression be parsed, and goes on or returns. A `Session` is a
text with a cursor in it and the places remembered so far, and `Session.perform` is one such act
with its answer. Acts that fail leave the session where reading stopped, and it can go on.
-/

set_option autoImplicit false

namespace EL

/-- A text being worked on. -/
structure Session where
  /-- The whole text. -/
  text : String
  /-- Where the session is. -/
  cursor : Cursor
  /-- The places remembered so far, the first one first. -/
  saved : List Cursor := []

/-- What a host can do. -/
inductive Act where
  /-- Read a token. -/
  | next
  /-- Look at a token. -/
  | peek
  /-- Remember this place. -/
  | save
  /-- Return to a place, by the order in which places were remembered. -/
  | restore (i : Nat)
  /-- Ask for the text that has not been read. -/
  | remainder
  /-- Ask for the whole text. -/
  | whole
  /-- Ask for the place, in words. -/
  | place
  /-- Parse an expression. -/
  | parse (mode : Mode)

/-- What a host is told. -/
inductive Answer where
  | token (outcome : Except ParseError Token)
  | saved (p : Position)
  | nothing
  | text (s : String)
  | tree (outcome : Except ParseError Expr)

namespace Session

/-- A session at the start of a text. -/
def start (text : String) (l : Location := .origin) : Session :=
  { text, cursor := .ofText text l }

/-- One act: its answer, and the session after it. To return to a place that was never remembered
    changes nothing. -/
def perform (s : Session) : Act → Answer × Session
  | .next =>
    let (outcome, cursor) := s.cursor.next
    (.token outcome, { s with cursor })
  | .peek => (.token s.cursor.peek, s)
  | .save => (.saved s.cursor.position, { s with saved := s.saved ++ [s.cursor] })
  | .restore i => (.nothing, { s with cursor := s.saved[i]?.getD s.cursor })
  | .remainder => (.text s.cursor.remainder, s)
  | .whole => (.text s.text, s)
  | .place => (.text s.cursor.location.describe, s)
  | .parse mode =>
    let (outcome, cursor) := s.cursor.parse { mode }
    (.tree outcome, { s with cursor })

/-- A number of acts: each answer with the place after it. -/
def performAll (s : Session) : List Act → List (Answer × Position)
  | [] => []
  | a :: as =>
    let (answer, s) := s.perform a
    (answer, s.cursor.position) :: s.performAll as

end Session

end EL
