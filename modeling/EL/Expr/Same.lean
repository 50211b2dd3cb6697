import EL.Error
import EL.Expr.Basic

/-!
# Equality of trees

Two trees are the same if they have the same shape, operators, names and values, **wherever they
were read**. Numbers are compared as numbers, so the two zeros make no difference, and a tree
that holds `nan` is not the same as itself; no tree that was read from a text holds one.
-/

set_option autoImplicit false

namespace EL.Expr

mutual

/-- Are two trees the same, places left aside? -/
def same : Expr → Expr → Bool
  | literal a _, literal b _ => a.same b
  | var a _, var b _ => a = b
  | unary o a _, unary p b _ => o = p && a.same b
  | binary o a b _, binary p c d _ => o = p && a.same c && b.same d
  | array as _, array bs _ => sameList as bs
  | map as _, map bs _ => sameEntries as bs
  | switch as _, switch bs _ => sameList as bs
  | subscript a b _, subscript c d _ => a.same c && b.same d
  | _, _ => false

/-- Are the trees of two lists the same, one by one? -/
def sameList : List Expr → List Expr → Bool
  | [], [] => true
  | a :: as, b :: bs => a.same b && sameList as bs
  | _, _ => false

/-- Are the keys and values of two maps the same, one by one? -/
def sameEntries : List (String × Expr) → List (String × Expr) → Bool
  | [], [] => true
  | (k, a) :: as, (l, b) :: bs => k = l && a.same b && sameEntries as bs
  | _, _ => false

end

end EL.Expr

namespace EL

/-- Do two readings have the same outcome? Trees are compared as trees and errors by what they
    report; a tree is never the same as an error. -/
def sameOutcome : Except ParseError Expr → Except ParseError Expr → Bool
  | .ok a, .ok b => a.same b
  | .error a, .error b => a.same b
  | _, _ => false

end EL
