import EL.Expr.Basic

/-!
# Properties of all nodes of a tree

A law of trees is often one of every node, whatever stands around it. `Expr.All P` says that `P`
holds of each node that a tree has, and `all_iff` takes it apart: **of the root, and of the trees
below it**. That is all that an induction over a tree has to know of the list of its nodes.
-/

set_option autoImplicit false

namespace EL.Expr

mutual

/-- Depths aside, the nodes of a tree do not depend on where it stands. -/
theorem nodesFrom_eq (d : Nat) : ∀ e : Expr, (e.nodesFrom d).map (·.2) = e.nodes.map (·.2)
  | literal _ _ | var _ _ => by simp [nodes, nodesFrom]
  | unary _ e _ => by
    simp only [nodes, nodesFrom, List.map_cons]
    rw [nodesFrom_eq (d + 1) e, nodesFrom_eq (0 + 1) e]
  | binary _ a b _ | subscript a b _ => by
    simp only [nodes, nodesFrom, List.map_cons, List.map_append]
    rw [nodesFrom_eq (d + 1) a, nodesFrom_eq (0 + 1) a, nodesFrom_eq (d + 1) b,
      nodesFrom_eq (0 + 1) b]
  | array es _ | switch es _ => by
    simp only [nodes, nodesFrom, List.map_cons]
    rw [listNodesFrom_eq (d + 1) es, listNodesFrom_eq (0 + 1) es]
  | map kvs _ => by
    simp only [nodes, nodesFrom, List.map_cons]
    rw [entryNodesFrom_eq (d + 1) kvs, entryNodesFrom_eq (0 + 1) kvs]

theorem listNodesFrom_eq (d : Nat) : ∀ es : List Expr,
    (listNodesFrom d es).map (·.2) = es.flatMap fun e => e.nodes.map (·.2)
  | [] => rfl
  | e :: es => by
    rw [listNodesFrom, List.map_append, nodesFrom_eq d e, listNodesFrom_eq d es,
      List.flatMap_cons]

theorem entryNodesFrom_eq (d : Nat) : ∀ kvs : List (String × Expr),
    (entryNodesFrom d kvs).map (·.2) = kvs.flatMap fun kv => kv.2.nodes.map (·.2)
  | [] => rfl
  | (_, e) :: kvs => by
    rw [entryNodesFrom, List.map_append, nodesFrom_eq d e, entryNodesFrom_eq d kvs,
      List.flatMap_cons]

end

/-- The nodes of a tree are its root and the nodes of the trees below it. -/
theorem map_nodes (e : Expr) :
    e.nodes.map (·.2) = e :: e.children.flatMap fun c => c.nodes.map (·.2) := by
  cases e with
  | literal | var => rfl
  | unary _ e =>
    simp only [nodes, nodesFrom, children, List.map_cons, nodesFrom_eq (0 + 1) e]
    simp
  | binary _ a b | subscript a b =>
    simp only [nodes, nodesFrom, children, List.map_cons, List.map_append, nodesFrom_eq (0 + 1) a,
      nodesFrom_eq (0 + 1) b]
    simp
  | array es | switch es =>
    simp only [nodes, nodesFrom, children, List.map_cons, listNodesFrom_eq (0 + 1) es]
  | map kvs =>
    simp only [nodes, nodesFrom, children, List.map_cons, entryNodesFrom_eq (0 + 1) kvs,
      List.flatMap_map]

/-- Does every node of a tree have this property? -/
def All (P : Expr → Prop) (e : Expr) : Prop := ∀ n ∈ e.nodes, P n.2

/-- **A property of all nodes is one of the root and of all nodes below it.** -/
theorem all_iff {P : Expr → Prop} {e : Expr} : e.All P ↔ P e ∧ ∀ c ∈ e.children, c.All P := by
  have h : ∀ e : Expr, e.All P ↔ ∀ x ∈ e.nodes.map (·.2), P x := fun e => by
    rw [All, List.forall_mem_map]
  simp only [h]
  rw [map_nodes, List.forall_mem_cons, List.forall_mem_flatMap]

section
variable {P : Expr → Prop} {loc : Location}

@[simp] theorem all_literal {v : Literal} : (literal v loc).All P ↔ P (literal v loc) :=
  all_iff.trans (by simp [children])

@[simp] theorem all_var {x : String} : (var x loc).All P ↔ P (var x loc) :=
  all_iff.trans (by simp [children])

@[simp] theorem all_unary {op : UnaryOp} {e : Expr} :
    (unary op e loc).All P ↔ P (unary op e loc) ∧ e.All P :=
  all_iff.trans (by simp [children])

@[simp] theorem all_binary {op : BinaryOp} {a b : Expr} :
    (binary op a b loc).All P ↔ P (binary op a b loc) ∧ a.All P ∧ b.All P :=
  all_iff.trans (by simp [children])

@[simp] theorem all_array {es : List Expr} :
    (array es loc).All P ↔ P (array es loc) ∧ ∀ e ∈ es, e.All P :=
  all_iff

@[simp] theorem all_switch {es : List Expr} :
    (switch es loc).All P ↔ P (switch es loc) ∧ ∀ e ∈ es, e.All P :=
  all_iff

@[simp] theorem all_map {m : List (String × Expr)} :
    (map m loc).All P ↔ P (map m loc) ∧ ∀ kv ∈ m, kv.2.All P := by
  rw [all_iff, children, List.forall_mem_map]

@[simp] theorem all_subscript {a b : Expr} :
    (subscript a b loc).All P ↔ P (subscript a b loc) ∧ a.All P ∧ b.All P :=
  all_iff.trans (by simp [children])

end

theorem All.root {P : Expr → Prop} {e : Expr} (h : e.All P) : P e := (all_iff.mp h).1

theorem All.child {P : Expr → Prop} {e c : Expr} (h : e.All P) (hc : c ∈ e.children) : c.All P :=
  (all_iff.mp h).2 c hc

theorem All.imp {P Q : Expr → Prop} {e : Expr} (hPQ : ∀ x, P x → Q x) (h : e.All P) : e.All Q :=
  fun n hn => hPQ _ (h n hn)

theorem sizeOf_lt_of_mem_children {c e : Expr} (h : c ∈ e.children) : sizeOf c < sizeOf e := by
  cases e with
  | literal | var => cases h
  | unary =>
    obtain rfl := List.mem_singleton.mp h
    simp only [unary.sizeOf_spec]
    omega
  | binary | subscript =>
    simp only [children, List.mem_cons, List.not_mem_nil, or_false] at h
    rcases h with rfl | rfl <;> simp only [binary.sizeOf_spec, subscript.sizeOf_spec] <;> omega
  | array | switch =>
    have := List.sizeOf_lt_of_mem h
    simp only [children, array.sizeOf_spec, switch.sizeOf_spec] at *
    omega
  | map m =>
    obtain ⟨⟨key, v⟩, hkv, rfl⟩ := List.mem_map.mp h
    have := List.sizeOf_lt_of_mem hkv
    simp only [map.sizeOf_spec, Prod.mk.sizeOf_spec] at *
    omega

/-- A property of all nodes is one of all nodes below each of them. -/
theorem All.all {P : Expr → Prop} {e : Expr} (h : e.All P) : e.All fun n => n.All P := by
  refine all_iff.mpr ⟨h, fun c hc => ?_⟩
  have := sizeOf_lt_of_mem_children hc
  exact (h.child hc).all
termination_by sizeOf e

/-! ## Entries of a map -/

/-- An entry that is put in takes at most the place of another. -/
theorem mem_insertEntry {key : String} {e : Expr} {kv : String × Expr} :
    ∀ {m : List (String × Expr)}, kv ∈ insertEntry key e m → kv = (key, e) ∨ kv ∈ m
  | [], h => .inl (List.mem_singleton.mp h)
  | (k, v) :: m, h => by
    rw [insertEntry] at h
    split at h
    · rcases List.mem_cons.mp h with rfl | h
      · exact .inl rfl
      · exact .inr h
    · split at h
      · rcases List.mem_cons.mp h with rfl | h
        · exact .inl rfl
        · exact .inr (List.mem_cons_of_mem _ h)
      · rcases List.mem_cons.mp h with rfl | h
        · exact .inr List.mem_cons_self
        · exact (mem_insertEntry h).imp id (List.mem_cons_of_mem _)

theorem insertEntry_ne_nil {key : String} {e : Expr} :
    ∀ {m : List (String × Expr)}, insertEntry key e m ≠ []
  | [] => List.cons_ne_nil _ _
  | _ :: _ => by
    rw [insertEntry]
    split
    · exact List.cons_ne_nil _ _
    · split <;> exact List.cons_ne_nil _ _

/-- The keys of the entries increase, so each comes once. -/
def Ordered (m : List (String × Expr)) : Prop := m.Pairwise fun a b => a.1 < b.1

theorem ordered_insertEntry {key : String} {e : Expr} :
    ∀ {m : List (String × Expr)}, Ordered m → Ordered (insertEntry key e m)
  | [], _ => List.pairwise_singleton _ _
  | (k, v) :: m, h => by
    obtain ⟨hk, hm⟩ := List.pairwise_cons.mp h
    rw [insertEntry]
    split
    · rename_i hlt
      refine List.pairwise_cons.mpr ⟨fun kv hkv => ?_, h⟩
      rcases List.mem_cons.mp hkv with rfl | hkv
      · exact hlt
      · exact String.lt_trans hlt (hk kv hkv)
    · rename_i hnlt
      split
      · rename_i heq
        exact List.pairwise_cons.mpr ⟨fun kv hkv => heq ▸ hk kv hkv, hm⟩
      · rename_i hne
        have hlt : k < key := Decidable.byContradiction fun hge =>
          hne (String.le_antisymm (String.not_lt.mp hge) (String.not_lt.mp hnlt))
        refine List.pairwise_cons.mpr ⟨fun kv hkv => ?_, ordered_insertEntry hm⟩
        rcases mem_insertEntry hkv with rfl | hkv
        · exact hlt
        · exact hk kv hkv

/-- An entry with a new key is put among the others. -/
theorem perm_insertEntry {key : String} {e : Expr} :
    ∀ {m : List (String × Expr)}, (∀ kv ∈ m, kv.1 ≠ key) → (insertEntry key e m).Perm ((key, e) :: m)
  | [], _ => .refl _
  | (k, v) :: m, h => by
    obtain ⟨hk, hm⟩ := List.forall_mem_cons.mp h
    rw [insertEntry]
    split
    · exact .refl _
    · rw [if_neg hk.symm]
      exact ((perm_insertEntry hm).cons (k, v)).trans (.swap _ _ m)

/-- An entry whose key is greater than all others is put at the end. -/
theorem insertEntry_eq_append {key : String} {e : Expr} :
    ∀ {m : List (String × Expr)}, (∀ kv ∈ m, kv.1 < key) → insertEntry key e m = m ++ [(key, e)]
  | [], _ => rfl
  | (k, v) :: m, h => by
    obtain ⟨hk, hm⟩ := List.forall_mem_cons.mp h
    rw [insertEntry, if_neg (String.lt_asymm hk), if_neg (String.ne_of_lt hk).symm,
      insertEntry_eq_append hm, List.cons_append]

/-- The entries that there are after these ones are put in, one by one. -/
def insertEntries (m kvs : List (String × Expr)) : List (String × Expr) :=
  kvs.foldl (fun acc kv => insertEntry kv.1 kv.2 acc) m

/-- Entries in order are put in as they are. -/
theorem insertEntries_of_ordered {m kvs : List (String × Expr)} (h : Ordered (m ++ kvs)) :
    insertEntries m kvs = m ++ kvs := by
  induction kvs generalizing m with
  | nil => exact (List.append_nil m).symm
  | cons kv kvs ih =>
    have hlast : ∀ kv' ∈ m, kv'.1 < kv.1 := fun kv' hkv' =>
      (List.pairwise_append.mp h).2.2 kv' hkv' kv List.mem_cons_self
    have hput : insertEntry kv.1 kv.2 m = m ++ [kv] := insertEntry_eq_append hlast
    have hrest : Ordered ((m ++ [kv]) ++ kvs) := by rwa [List.append_assoc]
    calc insertEntries m (kv :: kvs) = insertEntries (m ++ [kv]) kvs := congrArg (insertEntries · kvs) hput
      _ = m ++ [kv] ++ kvs := ih hrest
      _ = m ++ kv :: kvs := List.append_assoc m [kv] kvs

/-- Entries with different keys are only put in order. -/
theorem perm_insertEntries {m kvs : List (String × Expr)} (h : ((m ++ kvs).map (·.1)).Nodup) :
    (insertEntries m kvs).Perm (m ++ kvs) := by
  induction kvs generalizing m with
  | nil => exact .of_eq (List.append_nil m).symm
  | cons kv kvs ih =>
    have hnew : ∀ kv' ∈ m, kv'.1 ≠ kv.1 := by
      rw [List.map_append, List.nodup_append] at h
      exact fun kv' hkv' => h.2.2 _ (List.mem_map_of_mem hkv') _ List.mem_cons_self
    have hput : (insertEntry kv.1 kv.2 m ++ kvs).Perm (m ++ kv :: kvs) :=
      ((perm_insertEntry hnew).append_right kvs).trans List.perm_middle.symm
    exact (ih ((hput.map _).nodup_iff.mpr h)).trans hput

end EL.Expr
