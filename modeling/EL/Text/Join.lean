/-!
# Joining texts

Lists are written with a separator between their items and none before the first or after the
last. Lines are written each with its end, the last one too.
-/

set_option autoImplicit false

namespace EL.Text

/-- The texts of a list, one after the other, with `sep` between neighbours. -/
def joinWith (sep : String) : List String → String
  | [] => ""
  | [a] => a
  | a :: b :: r => a ++ (sep ++ joinWith sep (b :: r))

@[simp] theorem joinWith_nil (sep : String) : joinWith sep [] = "" := rfl

@[simp] theorem joinWith_singleton (sep a : String) : joinWith sep [a] = a := rfl

@[simp] theorem joinWith_cons_cons (sep a b : String) (r : List String) :
    joinWith sep (a :: b :: r) = a ++ (sep ++ joinWith sep (b :: r)) := rfl

/-- Lines of text, each with its end. -/
def ofLines : List String → String
  | [] => ""
  | a :: r => a ++ ("\n" ++ ofLines r)

end EL.Text
