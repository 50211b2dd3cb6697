import EL.Expr.Variables
import EL.Proofs.Entries

/-!
# The last entry of a map stays

A key can be spelled as a name or in quotes of either kind, and entries whose keys are spelled
differently can still be entries for the same key. Of these only the last one stays, and so

> **a map says what each of its keys stands for, and nothing else of how it was written**
> (`parseStrict_entries`).

Two lists of entries with the same answer for every key make up one list in order
(`Expr.entriesOfList_congr`), so the trees of their texts are one tree, places aside, and what is
printed of a tree or listed of its variables does not depend on places.
-/

set_option autoImplicit false

namespace EL

namespace Expr

/-! ## What a key stands for -/

section
variable {m m' kvs kvs' : List (String × Expr)} {key k : String} {e : Expr}

theorem lookup_cons_eq (kv : String × Expr) (m : List (String × Expr)) (k : String) :
    (kv :: m).lookup k = if k = kv.1 then some kv.2 else m.lookup k := by
  obtain ⟨k', v⟩ := kv
  rw [List.lookup_cons]
  by_cases hk : k = k'
  · rw [if_pos hk, beq_iff_eq.mpr hk]
  · rw [if_neg hk, beq_eq_false_iff_ne.mpr hk]

/-- An entry that is put in changes what its own key stands for, and no other. -/
theorem lookup_insertEntry (m : List (String × Expr)) :
    (insertEntry key e m).lookup k = ((key, e) :: m).lookup k := by
  induction m with
  | nil => rfl
  | cons kv m ih =>
    obtain ⟨k', v⟩ := kv
    rw [insertEntry]
    split
    · rfl
    · split
      · -- The entry that was there before is not found behind the new one.
        rename_i heq
        rw [lookup_cons_eq, lookup_cons_eq, lookup_cons_eq]
        by_cases hk : k = key
        · rw [if_pos hk, if_pos hk]
        · rw [if_neg hk, if_neg hk, if_neg (heq ▸ hk)]
      · rename_i hne
        rw [lookup_cons_eq, ih, lookup_cons_eq, lookup_cons_eq, lookup_cons_eq]
        by_cases hk : k = k'
        · rw [if_pos hk, if_pos hk, if_neg (fun h => hne (h.symm.trans hk))]
        · rw [if_neg hk, if_neg hk]

/-- What is put in last is found. -/
theorem lookup_insertEntries (m kvs : List (String × Expr)) (k : String) :
    (insertEntries m kvs).lookup k = (kvs.reverse ++ m).lookup k := by
  induction kvs generalizing m with
  | nil => rfl
  | cons kv kvs ih =>
    have hput : (insertEntry kv.1 kv.2 m).lookup k = (kv :: m).lookup k := lookup_insertEntry m
    calc (insertEntries m (kv :: kvs)).lookup k
        = (kvs.reverse ++ insertEntry kv.1 kv.2 m).lookup k := ih _
      _ = (kvs.reverse ++ kv :: m).lookup k := by rw [List.lookup_append, List.lookup_append, hput]
      _ = ((kv :: kvs).reverse ++ m).lookup k := by rw [List.reverse_cons, List.append_assoc]; rfl

/-- **Every key stands for the tree of its last entry.** -/
theorem lookup_entriesOfList (kvs : List (String × Expr)) (k : String) :
    (entriesOfList kvs).lookup k = kvs.reverse.lookup k := by
  have h := lookup_insertEntries [] kvs k
  rwa [List.append_nil] at h

theorem ordered_insertEntries (h : Ordered m) (kvs : List (String × Expr)) :
    Ordered (insertEntries m kvs) := by
  induction kvs generalizing m with
  | nil => exact h
  | cons kv kvs ih => exact ih (ordered_insertEntry h)

theorem ordered_entriesOfList (kvs : List (String × Expr)) : Ordered (entriesOfList kvs) :=
  ordered_insertEntries .nil kvs

theorem lookup_eq_none_of_lt (h : ∀ kv ∈ m, k < kv.1) : m.lookup k = none := by
  rw [List.lookup_eq_none_iff]
  intro kv hkv
  exact bne_iff_ne.mpr (String.ne_of_lt (h kv hkv))

/-- A key with an entry does not come before the first one. -/
theorem not_lt_of_lookup {kv : String × Expr} (hm : Ordered (kv :: m))
    (hk : (kv :: m).lookup k = some e) : ¬ k < kv.1 := by
  intro hlt
  have hnone : (kv :: m).lookup k = none := by
    refine lookup_eq_none_of_lt (List.forall_mem_cons.mpr ⟨hlt, fun kv' hkv' => ?_⟩)
    exact String.lt_trans hlt ((List.pairwise_cons.mp hm).1 kv' hkv')
  rw [hk] at hnone
  cases hnone

theorem lookup_head (kv : String × Expr) (m : List (String × Expr)) :
    (kv :: m).lookup kv.1 = some kv.2 := by
  rw [lookup_cons_eq, if_pos rfl]

/-- Entries in order are determined by what their keys stand for. -/
theorem eq_of_lookup (hm : Ordered m) (hm' : Ordered m') (h : ∀ k, m.lookup k = m'.lookup k) :
    m = m' := by
  induction m generalizing m' with
  | nil =>
    cases m' with
    | nil => rfl
    | cons kv m' =>
      have hkv := (h kv.1).trans (lookup_head kv m')
      cases hkv
  | cons kv m ih =>
    have hfirst := lookup_head kv m
    rw [h] at hfirst
    cases m' with
    | nil => cases hfirst
    | cons kv' m' =>
      have hfirst' := lookup_head kv' m'
      rw [← h] at hfirst'
      have hkey : kv.1 = kv'.1 := String.le_antisymm
        (String.not_lt.mp (not_lt_of_lookup hm hfirst'))
        (String.not_lt.mp (not_lt_of_lookup hm' hfirst))
      have hvalue : kv.2 = kv'.2 := by
        rw [hkey, lookup_head] at hfirst
        exact (Option.some.inj hfirst).symm
      obtain rfl : kv = kv' := Prod.ext hkey hvalue
      obtain ⟨hlt, hm⟩ := List.pairwise_cons.mp hm
      obtain ⟨hlt', hm'⟩ := List.pairwise_cons.mp hm'
      have hrest : ∀ k, m.lookup k = m'.lookup k := by
        intro k
        by_cases hk : k = kv.1
        · subst hk
          rw [lookup_eq_none_of_lt hlt, lookup_eq_none_of_lt hlt']
        · have hlater := h k
          rwa [lookup_cons_eq, lookup_cons_eq, if_neg hk, if_neg hk] at hlater
      rw [ih hm hm' hrest]

/-- Lists of entries in which the keys stand for the same are one when they are put in order. -/
theorem entriesOfList_congr (h : ∀ k, kvs.reverse.lookup k = kvs'.reverse.lookup k) :
    entriesOfList kvs = entriesOfList kvs' := by
  refine eq_of_lookup (ordered_entriesOfList kvs) (ordered_entriesOfList kvs') fun k => ?_
  rw [lookup_entriesOfList, lookup_entriesOfList, h]

/-- Two entries for different keys can change places. -/
theorem entriesOfList_swap {kv kv' : String × Expr} (hne : kv.1 ≠ kv'.1) :
    entriesOfList (kvs ++ kv :: kv' :: kvs') = entriesOfList (kvs ++ kv' :: kv :: kvs') := by
  refine entriesOfList_congr fun k => ?_
  have hpair : [kv', kv].lookup k = [kv, kv'].lookup k := by
    simp only [lookup_cons_eq]
    by_cases hk : k = kv.1
    · rw [if_pos hk, if_neg (fun h => hne (hk.symm.trans h)), if_pos hk]
    · rw [if_neg hk, if_neg hk]
  have hsplit : ∀ a b : String × Expr, (kvs ++ a :: b :: kvs').reverse.lookup k =
      (kvs'.reverse.lookup k).or (([b, a].lookup k).or (kvs.reverse.lookup k)) := by
    intro a b
    rw [← List.lookup_append, ← List.lookup_append]
    simp
  rw [hsplit, hsplit, hpair]

/-- An entry is not missed where a later one has its key. -/
theorem entriesOfList_delete {kv kv' : String × Expr} (hkv' : kv' ∈ kvs') (hkey : kv'.1 = kv.1) :
    entriesOfList (kvs ++ kv :: kvs') = entriesOfList (kvs ++ kvs') := by
  refine entriesOfList_congr fun k => ?_
  have hsplit : (kvs ++ kv :: kvs').reverse.lookup k =
      ((kvs'.reverse ++ [kv]).lookup k).or (kvs.reverse.lookup k) := by
    rw [← List.lookup_append]
    simp
  have hlater : (kvs'.reverse ++ [kv]).lookup k = kvs'.reverse.lookup k := by
    rw [List.lookup_append, lookup_cons_eq]
    by_cases hk : k = kv.1
    · cases hfound : kvs'.reverse.lookup k with
      | some e => rfl
      | none =>
        have hnot := List.lookup_eq_none_iff.mp hfound kv' (List.mem_reverse.mpr hkv')
        exact absurd (hk.trans hkey.symm) (bne_iff_ne.mp hnot)
    · rw [if_neg hk]
      exact Option.or_none
  rw [hsplit, hlater, List.reverse_append, List.lookup_append]

end

/-! ## Variables -/

section
variable (f : Location → Location)

mutual

/-- Variables are listed wherever they stand. -/
theorem occurrences_relocate : ∀ e : Expr, (e.relocate f).occurrences = e.occurrences
  | literal _ _ | var _ _ => rfl
  | unary _ e _ => occurrences_relocate e
  | binary _ a b _ | subscript a b _ => by
    rw [relocate, occurrences, occurrences, occurrences_relocate a, occurrences_relocate b]
  | array es _ | switch es _ => listOccurrences_relocate es
  | map m _ => entryOccurrences_relocate m

theorem listOccurrences_relocate : ∀ es : List Expr,
    listOccurrences (relocateList f es) = listOccurrences es
  | [] => rfl
  | e :: es => by
    rw [relocateList, listOccurrences, listOccurrences, occurrences_relocate e,
      listOccurrences_relocate es]

theorem entryOccurrences_relocate : ∀ m : List (String × Expr),
    entryOccurrences (relocateEntries f m) = entryOccurrences m
  | [] => rfl
  | (_, e) :: m => by
    rw [relocateEntries, entryOccurrences, entryOccurrences, occurrences_relocate e,
      entryOccurrences_relocate m]

end

theorem freeVariables_relocate (e : Expr) : (e.relocate f).freeVariables = e.freeVariables := by
  rw [freeVariables, freeVariables, occurrences_relocate]

end

end Expr

/-! ## Texts of maps -/

/-- Both texts are read strictly, and there is no telling their trees apart: neither by comparing
    them, nor by what is printed, nor by their variables. -/
def ReadAlike (text text' : String) : Prop :=
  ∃ x x', parseStrict text = .ok x ∧ parseStrict text' = .ok x' ∧ x.same x' = true ∧
    x.source = x'.source ∧ x.freeVariables = x'.freeVariables

/-- Are both entries for one key, however it is spelled? -/
def SameKey (entry entry' : String × String) : Prop := ∃ k, IsKey entry.1 k ∧ IsKey entry'.1 k

theorem IsKey.unique {text key key' : String} (h : IsKey text key) (h' : IsKey text key') :
    key = key' := by
  obtain ⟨t, after, hn, -, hkey⟩ := h
  obtain ⟨t', after', hn', -, hkey'⟩ := h'
  rw [hn] at hn'
  cases hn'
  rw [hkey] at hkey'
  exact Option.some.inj hkey'

theorem readAlike_of_bare {text text' : String} {x x' : Expr} (h : parseStrict text = .ok x)
    (h' : parseStrict text' = .ok x') (hbare : x'.bare = x.bare) : ReadAlike text text' := by
  refine ⟨x, x', h, h', ?_, ?_, ?_⟩
  · rw [Expr.same_congr_bare hbare]
    exact same_of_parse (Prod.ext h rfl)
  · calc x.source = x.bare.source := (Expr.source_relocate _ x).symm
      _ = x'.bare.source := by rw [hbare]
      _ = x'.source := Expr.source_relocate _ x'
  · calc x.freeVariables = x.bare.freeVariables := (Expr.freeVariables_relocate _ x).symm
      _ = x'.bare.freeVariables := by rw [hbare]
      _ = x'.freeVariables := Expr.freeVariables_relocate _ x'

section
variable {entries entries' : List (String × String)} {kvs kvs' : List (String × Expr)}

/-- The entries of a part of a list of texts. -/
theorem exists_entries_of_append {as bs : List (String × String)}
    (h : List.Forall₂ ReadsEntry (as ++ bs) kvs) :
    ∃ ks ls, kvs = ks ++ ls ∧ List.Forall₂ ReadsEntry as ks ∧ List.Forall₂ ReadsEntry bs ls :=
  ⟨_, _, (List.take_append_drop as.length kvs).symm,
    (List.forall₂_take_append kvs as bs h.flip).flip,
    (List.forall₂_drop_append kvs as bs h.flip).flip⟩

theorem exists_entry_of_mem {entry : String × String} (h : List.Forall₂ ReadsEntry entries kvs)
    (hentry : entry ∈ entries) : ∃ kv ∈ kvs, ReadsEntry entry kv := by
  obtain ⟨as, bs, rfl⟩ := List.append_of_mem hentry
  obtain ⟨ks, ls, rfl, -, hrest⟩ := exists_entries_of_append h
  obtain ⟨kv, _, hread, -, rfl⟩ := List.forall₂_cons_left_iff.mp hrest
  exact ⟨kv, by simp, hread⟩

/-- The text of a map says what its entries are in order, and no more. -/
theorem readAlike_of_entries (h : List.Forall₂ ReadsEntry entries kvs)
    (h' : List.Forall₂ ReadsEntry entries' kvs')
    (heq : Expr.entriesOfList kvs = Expr.entriesOfList kvs') :
    ReadAlike (mapText entries) (mapText entries') := by
  obtain ⟨tss, htexts, htrees⟩ := exists_tokens_of_entries h
  obtain ⟨tss', htexts', htrees'⟩ := exists_tokens_of_entries h'
  obtain ⟨x, hx, hbare⟩ := exists_bare_of_shows (shows_mapText htexts) (Grammar.derives_map htrees)
  obtain ⟨x', hx', hbare'⟩ :=
    exists_bare_of_shows (shows_mapText htexts') (Grammar.derives_map htrees')
  rw [← heq, ← hbare] at hbare'
  exact readAlike_of_bare hx hx' hbare'

end

/-- **The last entry of a map stays, and order does not matter.** The tree of a map that is written
    entry by entry has for each key the tree of the last of its entries. There is no telling whether
    two entries for different keys have changed places, or an entry was left out whose key comes
    again. -/
theorem parseStrict_entries {entries : List (String × String)} {kvs : List (String × Expr)}
    (h : List.Forall₂ ReadsEntry entries kvs) :
    (∃ m, Expr.Ordered m ∧ (∀ k, m.lookup k = kvs.reverse.lookup k) ∧
      ReadsAs (mapText entries) (.map m .origin)) ∧
    (∀ as x y bs, entries = as ++ x :: y :: bs → ¬ SameKey x y →
      ReadAlike (mapText entries) (mapText (as ++ y :: x :: bs))) ∧
    ∀ as x bs, entries = as ++ x :: bs → (∃ y ∈ bs, SameKey x y) →
      ReadAlike (mapText entries) (mapText (as ++ bs)) := by
  refine ⟨⟨_, Expr.ordered_entriesOfList kvs, Expr.lookup_entriesOfList kvs, readsAs_mapText h⟩,
    ?_, ?_⟩
  · rintro as x y bs rfl hne
    obtain ⟨ks, ls, rfl, has, hrest⟩ := exists_entries_of_append h
    obtain ⟨kv, _, hx, hlater, rfl⟩ := List.forall₂_cons_left_iff.mp hrest
    obtain ⟨kv', ls, hy, hbs, rfl⟩ := List.forall₂_cons_left_iff.mp hlater
    refine readAlike_of_entries h (List.rel_append has (.cons hy (.cons hx hbs))) ?_
    exact Expr.entriesOfList_swap fun hkey => hne ⟨kv.1, hx.1, hkey ▸ hy.1⟩
  · rintro as x bs rfl ⟨y, hy, k, hxk, hyk⟩
    obtain ⟨ks, ls, rfl, has, hrest⟩ := exists_entries_of_append h
    obtain ⟨kv, ls, hx, hbs, rfl⟩ := List.forall₂_cons_left_iff.mp hrest
    refine readAlike_of_entries h (List.rel_append has hbs) ?_
    obtain ⟨kv', hkv', hread⟩ := exists_entry_of_mem hbs hy
    exact Expr.entriesOfList_delete hkv' ((hread.1.unique hyk).trans (hxk.unique hx.1))

/-- A name and strings in quotes of either kind can be one key. -/
theorem parseStrict_entries_spellings :
    (∃ m, Expr.Ordered m ∧ m.lookup "a" = some (.literal (.string "z") ⟨1, 1⟩) ∧
      ReadsAs (mapText [("a", "x"), ("'b'", "y"), ("\"a\"", "'z'")]) (.map m .origin)) ∧
    ReadAlike (mapText [("a", "x"), ("'b'", "y"), ("\"a\"", "'z'")])
      (mapText [("'b'", "y"), ("a", "x"), ("\"a\"", "'z'")]) ∧
    ReadAlike (mapText [("a", "x"), ("'b'", "y"), ("\"a\"", "'z'")])
      (mapText [("'b'", "y"), ("\"a\"", "'z'")]) := by
  have hread : List.Forall₂ ReadsEntry [("a", "x"), ("'b'", "y"), ("\"a\"", "'z'")]
      [("a", .var "x" ⟨1, 1⟩), ("b", .var "y" ⟨1, 1⟩), ("a", .literal (.string "z") ⟨1, 1⟩)] := by
    refine .cons ⟨⟨_, _, rfl, rfl, rfl⟩, ?_⟩ (.cons ⟨⟨_, _, rfl, rfl, rfl⟩, ?_⟩
      (.cons ⟨⟨_, _, rfl, rfl, rfl⟩, ?_⟩ .nil)) <;>
      exact parseStrict_eq_ok_iff.mpr ⟨_, Cursor.tokens_of_scanWithin 2 rfl, rfl⟩
  obtain ⟨⟨m, hm, hlookup, hreads⟩, hswap, hdelete⟩ := parseStrict_entries hread
  refine ⟨⟨m, hm, (hlookup "a").trans rfl, hreads⟩, ?_, ?_⟩
  · refine hswap [] ("a", "x") ("'b'", "y") _ rfl ?_
    rintro ⟨k, hx, hy⟩
    have ha : IsKey "a" "a" := ⟨_, _, rfl, rfl, rfl⟩
    have hb : IsKey "'b'" "b" := ⟨_, _, rfl, rfl, rfl⟩
    exact absurd ((ha.unique hx).trans (hy.unique hb)) (by decide)
  · refine hdelete [] ("a", "x") _ rfl ⟨("\"a\"", "'z'"), by simp, "a", ?_, ?_⟩ <;>
      exact ⟨_, _, rfl, rfl, rfl⟩

end EL
