import EL.Cursor

/-!
# Token streams: a text, read to its end

A `Stream` is everything that reading a text can yield from one place on: tokens, each with the
cursor after it, and one of two endings, the end of input or an error. It is finite, because every
token shortens the text (`Cursor.length_rest_next_lt`), so what consumes tokens can be defined by
recursion on it. A parser, which looks one token ahead, sees a stream and no characters at all.
-/

set_option autoImplicit false

namespace EL

/-- What reading a text yields from some place on. -/
inductive Stream where
  /-- A token, the cursor after it, and what comes then. -/
  | token (t : Token) (after : Cursor) (next : Stream)
  /-- The end of input, and the cursor at it. -/
  | done (t : Token) (after : Cursor)
  /-- An error, and the cursor where reading stopped. -/
  | broken (e : ParseError) (stop : Cursor)

/-- Reads a text to its end. -/
def Cursor.stream (c : Cursor) : Stream :=
  match _h : c.next with
  | (.error e, stop) => .broken e stop
  | (.ok t, after) =>
    if _ht : t.kind = .endOfInput then .done t after else .token t after after.stream
termination_by c.rest.length
decreasing_by exact length_rest_next_lt _h _ht

theorem Cursor.stream_of_error {c stop : Cursor} {e : ParseError}
    (h : c.next = (.error e, stop)) : c.stream = .broken e stop := by
  rw [Cursor.stream]
  split <;> simp_all

theorem Cursor.stream_of_end {c after : Cursor} {t : Token}
    (h : c.next = (.ok t, after)) (ht : t.kind = .endOfInput) : c.stream = .done t after := by
  rw [Cursor.stream]
  split <;> simp_all

theorem Cursor.stream_of_token {c after : Cursor} {t : Token}
    (h : c.next = (.ok t, after)) (ht : t.kind ≠ .endOfInput) :
    c.stream = .token t after after.stream := by
  rw [Cursor.stream]
  split <;> simp_all

namespace Stream

/-- The tokens of a stream, the end of input included. -/
def tokens : Stream → List Token
  | token t _ next => t :: next.tokens
  | done t _ => [t]
  | broken _ _ => []

/-- The error that a stream ends with. -/
def error? : Stream → Option ParseError
  | token _ _ next => next.error?
  | done _ _ => none
  | broken e _ => some e

end Stream

/-- All tokens of a text, the end of input included, or the error that the scan stops at. -/
def Cursor.tokens (c : Cursor) : Except ParseError (List Token) :=
  match c.stream.error? with
  | some e => .error e
  | none => .ok c.stream.tokens

end EL
