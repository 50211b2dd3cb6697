import EL.Expr.Same
import EL.Expr.Worklist

/-!
# The variables of a tree

What the loop has collected when nothing is pending any more is what the recursion over trees lists
(`gathered_eq`). The names met so far and those that still occur in what is pending are the same
all the way: a node has **its own name and those of the trees below it**, whatever it is.

Both are lists in order that hold each name once, and there is one such list of the names only.
-/

set_option autoImplicit false

namespace EL.Expr

section
variable {x : String} {e : Expr} {es : List Expr} {m : List (String × Expr)}

/-! ## Where names occur -/

theorem listOccurrences_eq (es : List Expr) : listOccurrences es = es.flatMap occurrences := by
  induction es with
  | nil => rfl
  | cons e es ih => rw [listOccurrences, ih, List.flatMap_cons]

theorem entryOccurrences_eq (m : List (String × Expr)) :
    entryOccurrences m = m.flatMap fun kv => kv.2.occurrences := by
  induction m with
  | nil => rfl
  | cons kv m ih => rw [entryOccurrences, ih, List.flatMap_cons]

/-- The name of a node, if it is a variable. -/
def names : Expr → List String
  | var name _ => [name]
  | _ => []

/-- A node has its own name and those of the trees below it. -/
theorem occurrences_eq (e : Expr) : e.occurrences = e.names ++ e.children.flatMap occurrences := by
  cases e with
  | literal | var => rfl
  | unary _ e => simp [occurrences, names, children]
  | binary _ a b | subscript a b => simp [occurrences, names, children]
  | array es | switch es => exact listOccurrences_eq es
  | map m =>
    rw [occurrences, entryOccurrences_eq, children, List.flatMap_map]
    rfl

/-- The names that occur are those of the variables among the nodes. No key of a map is one of them,
    and nothing in a string. -/
theorem mem_occurrences_iff (e : Expr) :
    x ∈ e.occurrences ↔ ∃ l, var x l ∈ e.nodes.map (·.2) := by
  have hnames : x ∈ e.names ↔ ∃ l, var x l = e := by
    cases e <;> simp [names]
  rw [map_nodes, occurrences_eq, List.mem_append, hnames]
  simp only [List.mem_cons, List.mem_flatMap]
  constructor
  · rintro (⟨l, hl⟩ | ⟨c, hc, hx⟩)
    · exact ⟨l, .inl hl⟩
    · have := sizeOf_lt_of_mem_children hc
      obtain ⟨l, hl⟩ := (mem_occurrences_iff c).mp hx
      exact ⟨l, .inr ⟨c, hc, hl⟩⟩
  · rintro ⟨l, hl | ⟨c, hc, hl⟩⟩
    · exact .inl ⟨l, hl⟩
    · have := sizeOf_lt_of_mem_children hc
      exact .inr ⟨c, hc, (mem_occurrences_iff c).mpr ⟨l, hl⟩⟩
termination_by sizeOf e

/-! ## Names in order -/

/-- The names increase, so each comes once. -/
def Increasing (l : List String) : Prop := l.Pairwise (· < ·)

theorem increasing_insertName {l : List String} (h : Increasing l) :
    Increasing (insertName x l) := by
  induction l with
  | nil => exact List.pairwise_singleton _ _
  | cons n l ih =>
    obtain ⟨hn, hl⟩ := List.pairwise_cons.mp h
    rw [insertName]
    split
    · rename_i hlt
      refine List.pairwise_cons.mpr ⟨fun y hy => ?_, h⟩
      rcases List.mem_cons.mp hy with rfl | hy
      · exact hlt
      · exact String.lt_trans hlt (hn y hy)
    · rename_i hnlt
      split
      · exact h
      · rename_i hne
        have hlt : n < x := Decidable.byContradiction fun hge =>
          hne (String.le_antisymm (String.not_lt.mp hge) (String.not_lt.mp hnlt))
        refine List.pairwise_cons.mpr ⟨fun y hy => ?_, ih hl⟩
        rcases mem_insertName.mp hy with rfl | hy
        · exact hlt
        · exact hn y hy

/-- There is one list in order of the same names. -/
theorem Increasing.eq {l l' : List String} (h : Increasing l) (h' : Increasing l')
    (hmem : ∀ x, x ∈ l ↔ x ∈ l') : l = l' := by
  have hnodup : ∀ {l : List String}, Increasing l → l.Nodup := fun h =>
    h.imp fun hlt => String.ne_of_lt hlt
  have hperm : l.Perm l' := (List.perm_ext_iff_of_nodup (hnodup h) (hnodup h')).mpr hmem
  exact hperm.eq_of_pairwise (fun _ _ _ _ hab hba => absurd hba (String.lt_asymm hab)) h h'

theorem increasing_freeVariables (e : Expr) : Increasing e.freeVariables := by
  unfold freeVariables
  induction e.occurrences with
  | nil => exact .nil
  | cons x l ih => exact increasing_insertName ih

/-! ## The loop -/

theorem mem_note {names : List String} : x ∈ e.note names ↔ x ∈ e.names ∨ x ∈ names := by
  cases e <;> simp [note, Expr.names, mem_insertName]

theorem increasing_note {names : List String} (h : Increasing names) :
    Increasing (e.note names) := by
  cases e with
  | var => exact increasing_insertName h
  | _ => exact h

/-- **No name is lost and none is added on the way.** -/
theorem mem_gather (pending : List Expr) (names : List String) :
    x ∈ gather pending names ↔ x ∈ pending.flatMap occurrences ∨ x ∈ names := by
  fun_induction gather pending names with
  | case1 => simp
  | case2 names e rest ih =>
    rw [ih, mem_note, List.flatMap_append, List.flatMap_cons, occurrences_eq e]
    simp only [List.mem_append, List.mem_flatMap, List.mem_reverse, or_assoc, or_comm, or_left_comm]

theorem increasing_gather (pending : List Expr) (names : List String) (h : Increasing names) :
    Increasing (gather pending names) := by
  fun_induction gather pending names with
  | case1 => exact h
  | case2 names e rest ih => exact ih (increasing_note h)

theorem increasing_gathered (e : Expr) : Increasing e.gathered :=
  increasing_gather [e] [] .nil

theorem mem_gathered : x ∈ e.gathered ↔ x ∈ e.occurrences := by
  rw [gathered, mem_gather]
  simp

/-- The loop collects what the recursion lists. -/
theorem gathered_eq (e : Expr) : e.gathered = e.freeVariables :=
  (increasing_gathered e).eq (increasing_freeVariables e) fun _ =>
    mem_gathered.trans mem_freeVariables.symm

end

/-! ## Equal trees -/

mutual

theorem occurrences_eq_of_same : ∀ a b : Expr, a.same b = true → a.occurrences = b.occurrences
  | literal _ _, b, h => by
    cases b with
    | literal => rfl
    | _ => cases h
  | var x _, b, h => by
    cases b with
    | var y =>
      obtain rfl : x = y := by simpa [same] using h
      rfl
    | _ => cases h
  | unary _ a _, b, h => by
    cases b with
    | unary _ b => exact occurrences_eq_of_same a b (Bool.and_eq_true_iff.mp h).2
    | _ => cases h
  | binary _ a b _, c, h => by
    cases c with
    | binary _ c d =>
      obtain ⟨h, hb⟩ := Bool.and_eq_true_iff.mp h
      rw [occurrences, occurrences, occurrences_eq_of_same a c (Bool.and_eq_true_iff.mp h).2,
        occurrences_eq_of_same b d hb]
    | _ => cases h
  | array as _, b, h => by
    cases b with
    | array bs => exact listOccurrences_eq_of_same as bs h
    | _ => cases h
  | map m _, b, h => by
    cases b with
    | map m' => exact entryOccurrences_eq_of_same m m' h
    | _ => cases h
  | switch as _, b, h => by
    cases b with
    | switch bs => exact listOccurrences_eq_of_same as bs h
    | _ => cases h
  | subscript a b _, c, h => by
    cases c with
    | subscript c d =>
      obtain ⟨ha, hb⟩ := Bool.and_eq_true_iff.mp h
      rw [occurrences, occurrences, occurrences_eq_of_same a c ha, occurrences_eq_of_same b d hb]
    | _ => cases h

theorem listOccurrences_eq_of_same : ∀ as bs : List Expr, sameList as bs = true →
    listOccurrences as = listOccurrences bs
  | [], [], _ => rfl
  | [], _ :: _, h | _ :: _, [], h => by cases h
  | a :: as, b :: bs, h => by
    obtain ⟨ha, has⟩ := Bool.and_eq_true_iff.mp h
    rw [listOccurrences, listOccurrences, occurrences_eq_of_same a b ha,
      listOccurrences_eq_of_same as bs has]

theorem entryOccurrences_eq_of_same : ∀ m m' : List (String × Expr), sameEntries m m' = true →
    entryOccurrences m = entryOccurrences m'
  | [], [], _ => rfl
  | [], _ :: _, h | (_, _) :: _, [], h => by cases h
  | (_, a) :: m, (_, b) :: m', h => by
    obtain ⟨h, hm⟩ := Bool.and_eq_true_iff.mp h
    rw [entryOccurrences, entryOccurrences,
      occurrences_eq_of_same a b (Bool.and_eq_true_iff.mp h).2, entryOccurrences_eq_of_same m m' hm]

end

/-- Equal trees have the same variables. -/
theorem gathered_eq_of_same {a b : Expr} (h : a.same b = true) : a.gathered = b.gathered := by
  rw [gathered_eq, gathered_eq, freeVariables, freeVariables, occurrences_eq_of_same a b h]

end EL.Expr
