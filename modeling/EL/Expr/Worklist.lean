import EL.Expr.Variables
import EL.Proofs.Nodes

/-!
# Collecting variables from a list of what is pending

A tree can be deeper than a call stack, so its variables are collected by a loop: it takes the node
on top of what is pending, notes its name if it has one, and puts the nodes below it in its place.
**What is pending has one node less each time**, and that is why the loop ends on every tree, on
those as well that no text is read as.

The last of the nodes below is on top, so names are met in an order of their own. It does not
matter, since they are kept in the order of names.
-/

set_option autoImplicit false

namespace EL.Expr

/-- How many nodes the trees of a list have. -/
def pendingNodes (pending : List Expr) : Nat := (pending.flatMap nodes).length

/-- What is below a node has all its nodes but one. -/
theorem pendingNodes_children_lt (e : Expr) (rest : List Expr) :
    pendingNodes (e.children.reverse ++ rest) < pendingNodes (e :: rest) := by
  have hreverse : (e.children.reverse.flatMap nodes).length = (e.children.flatMap nodes).length :=
    ((List.reverse_perm e.children).flatMap_right nodes).length_eq
  have hnodes : e.nodes.length = (e.children.flatMap nodes).length + 1 := by
    have h := congrArg List.length (map_nodes e)
    rwa [← List.map_flatMap, List.length_cons, List.length_map, List.length_map] at h
  simp only [pendingNodes, List.flatMap_append, List.flatMap_cons, List.length_append, hreverse,
    hnodes]
  omega

/-- The names that are known when a node has been visited. -/
def note (e : Expr) (names : List String) : List String :=
  match e with
  | var name _ => insertName name names
  | _ => names

/-- Visits the pending trees with all that is below them, and adds the names it meets. -/
def gather (pending : List Expr) (names : List String) : List String :=
  match pending with
  | [] => names
  | e :: rest => gather (e.children.reverse ++ rest) (e.note names)
termination_by pendingNodes pending
decreasing_by exact pendingNodes_children_lt e rest

/-- The variables of a tree, as the loop collects them. -/
def gathered (e : Expr) : List String := gather [e] []

end EL.Expr
