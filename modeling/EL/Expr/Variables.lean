import EL.Expr.Basic

/-!
# Free variables

EL has no binders, so the variables of an expression are the names of its variable nodes. A host
asks for them to know what it must supply. They are listed in order and each once, so that the
answer depends on the set of names alone. Map keys and the contents of strings are no variables.
-/

set_option autoImplicit false

namespace EL.Expr

mutual

/-- The names of the variable nodes of a tree, as often as they occur, from left to right. -/
def occurrences : Expr → List String
  | literal _ _ => []
  | var name _ => [name]
  | unary _ e _ => e.occurrences
  | binary _ a b _ => a.occurrences ++ b.occurrences
  | array es _ => listOccurrences es
  | map kvs _ => entryOccurrences kvs
  | switch es _ => listOccurrences es
  | subscript a b _ => a.occurrences ++ b.occurrences

/-- The variables of the trees in a list. -/
def listOccurrences : List Expr → List String
  | [] => []
  | e :: es => e.occurrences ++ listOccurrences es

/-- The variables of the values of a map. -/
def entryOccurrences : List (String × Expr) → List String
  | [] => []
  | (_, e) :: kvs => e.occurrences ++ entryOccurrences kvs

end

/-- Adds a name to an ordered list that holds each name once. -/
def insertName (name : String) : List String → List String
  | [] => [name]
  | n :: r =>
    if name < n then name :: n :: r
    else if name = n then n :: r
    else n :: insertName name r

theorem mem_insertName {name x : String} {l : List String} :
    x ∈ insertName name l ↔ x = name ∨ x ∈ l := by
  induction l with
  | nil => simp [insertName]
  | cons n r ih => grind [insertName]

/-- The variables of an expression, in order and each once. -/
def freeVariables (e : Expr) : List String := e.occurrences.foldr insertName []

/-- Nothing is listed but variables, and all of them are. -/
theorem mem_freeVariables {e : Expr} {x : String} : x ∈ e.freeVariables ↔ x ∈ e.occurrences := by
  unfold freeVariables
  induction e.occurrences with
  | nil => simp
  | cons n r ih => simp [mem_insertName, ih]

end EL.Expr
