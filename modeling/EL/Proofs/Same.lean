import EL.Expr.Same
import EL.Proofs.Nodes
import EL.Proofs.Spelling

/-!
# Equal trees

Two trees that differ in nothing but their places are equal (`same_of_bare_eq`). **That takes a tree
to be equal to itself**, and the only thing that is not is a literal that is no number. Properties of
all nodes are kept too, if they do not look at places (`all_relocate`).
-/

set_option autoImplicit false

namespace EL.Expr

variable (f : Location → Location)

/-! ## Places -/

mutual

/-- Equality does not look at places. -/
theorem same_relocate : ∀ a b : Expr, a.same (b.relocate f) = a.same b
  | literal _ _, b | var _ _, b => by cases b <;> rfl
  | unary o a _, b => by
    cases b with
    | unary p b => rw [relocate, same, same, same_relocate a b]
    | _ => rfl
  | binary o a b _, c => by
    cases c with
    | binary p c d => rw [relocate, same, same, same_relocate a c, same_relocate b d]
    | _ => rfl
  | array as _, b => by
    cases b with
    | array bs => rw [relocate, same, same, sameList_relocate as bs]
    | _ => rfl
  | map as _, b => by
    cases b with
    | map bs => rw [relocate, same, same, sameEntries_relocate as bs]
    | _ => rfl
  | switch as _, b => by
    cases b with
    | switch bs => rw [relocate, same, same, sameList_relocate as bs]
    | _ => rfl
  | subscript a b _, c => by
    cases c with
    | subscript c d => rw [relocate, same, same, same_relocate a c, same_relocate b d]
    | _ => rfl

theorem sameList_relocate : ∀ as bs : List Expr,
    sameList as (relocateList f bs) = sameList as bs
  | [], [] | [], _ :: _ | _ :: _, [] => rfl
  | a :: as, b :: bs => by
    rw [relocateList, sameList, sameList, same_relocate a b, sameList_relocate as bs]

theorem sameEntries_relocate : ∀ as bs : List (String × Expr),
    sameEntries as (relocateEntries f bs) = sameEntries as bs
  | [], [] | [], _ :: _ | (_, _) :: _, [] => rfl
  | (_, a) :: as, (_, b) :: bs => by
    rw [relocateEntries, sameEntries, sameEntries, same_relocate a b, sameEntries_relocate as bs]

end

theorem children_relocate (e : Expr) : (e.relocate f).children = e.children.map (relocate f) := by
  cases e with
  | array es | switch es => exact relocateList_eq f es
  | map m =>
    rw [relocate, children, children, relocateEntries_eq, List.map_map, List.map_map]
    rfl
  | _ => rfl

/-- A property that does not look at places is one of all nodes wherever they stand. -/
theorem all_relocate {P : Expr → Prop} (hP : ∀ n, P (n.relocate f) ↔ P n) (e : Expr) :
    (e.relocate f).All P ↔ e.All P := by
  rw [all_iff, all_iff (e := e), hP, children_relocate, List.forall_mem_map]
  refine and_congr_right fun _ => forall_congr' fun c => forall_congr' fun hc => ?_
  have := sizeOf_lt_of_mem_children hc
  exact all_relocate hP c
termination_by sizeOf e

/-! ## A tree and itself -/

/-- A literal that is equal to itself. -/
def SelfSame : Expr → Prop
  | literal v _ => v.same v = true
  | _ => True

mutual

theorem same_refl : ∀ e : Expr, e.All SelfSame → e.same e = true
  | literal _ _, h => h.root
  | var _ _, _ => by simp [same]
  | unary _ e _, h => by simp [same, same_refl e (all_unary.mp h).2]
  | binary _ a b _, h => by
    obtain ⟨-, ha, hb⟩ := all_binary.mp h
    simp [same, same_refl a ha, same_refl b hb]
  | array es _, h => sameList_refl es (all_array.mp h).2
  | map m _, h => sameEntries_refl m (all_map.mp h).2
  | switch es _, h => sameList_refl es (all_switch.mp h).2
  | subscript a b _, h => by
    obtain ⟨-, ha, hb⟩ := all_subscript.mp h
    simp [same, same_refl a ha, same_refl b hb]

theorem sameList_refl : ∀ es : List Expr, (∀ e ∈ es, e.All SelfSame) → sameList es es = true
  | [], _ => rfl
  | e :: es, h => by
    obtain ⟨he, hes⟩ := List.forall_mem_cons.mp h
    simp [sameList, same_refl e he, sameList_refl es hes]

theorem sameEntries_refl : ∀ m : List (String × Expr), (∀ kv ∈ m, kv.2.All SelfSame) →
    sameEntries m m = true
  | [], _ => rfl
  | (_, e) :: m, h => by
    obtain ⟨he, hm⟩ := List.forall_mem_cons.mp h
    simp [sameEntries, same_refl e he, sameEntries_refl m hm]

end

/-- What is equal to a tree is equal to the tree in other places. -/
theorem same_congr_bare {a b b' : Expr} (h : b'.bare = b.bare) : a.same b' = a.same b :=
  calc a.same b' = a.same b'.bare := (same_relocate _ a b').symm
    _ = a.same b.bare := by rw [h]
    _ = a.same b := same_relocate _ a b

/-- **Trees that only differ in their places are equal.** -/
theorem same_of_bare_eq {a b : Expr} (h : b.bare = a.bare) (ha : a.All SelfSame) :
    a.same b = true := by
  rw [same_congr_bare h]
  exact same_refl a ha

end EL.Expr
