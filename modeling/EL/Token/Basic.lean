import EL.Location
import EL.Token.Kind

/-!
# Tokens

A token is a classified piece of the text and the place where that piece begins. The text of a
string literal is what stands between its quotes, escapes unread; its place is that of the opening
quote. The text of every other token is the piece itself, and that of the end of input is empty.
-/

set_option autoImplicit false

namespace EL

/-- A classified, located piece of text. -/
structure Token where
  /-- What the token is. -/
  kind : Kind
  /-- Its characters, without quotes. -/
  text : String
  /-- Where it begins. -/
  start : Position
deriving DecidableEq

namespace Token

/-- Where a token begins, in lines and columns. -/
def location (t : Token) : Location := t.start.location

/-- A token as one line of a listing: its place, its kind and its text, set apart by tabs. -/
def listingLine (t : Token) : String :=
  s!"{t.location.line}:{t.location.column}\t{t.kind.describe}\t'{t.text}'"

end Token

end EL
