import EL.Proofs.Grammar.NodeLaws
import EL.Proofs.Onward
import EL.Proofs.Outline

/-!
# Where the nodes of a tree stand

A node carries the location of one token, and for some of them that token was read long before what
is below the node, or after it: the bracket of a subscript comes behind its target, a sign in front
of its operand, and dots on either side of a bound. **Every node stands at a token that fits it**
(`Token.StandsFor`), **and what is below a node stands where the source has it** (`Expr.InOrder`).

Both are laws of all nodes (`Expr.Placed`), and they are kept rule by rule: what a phrase is made of
is placed at its tokens, and the tokens of a passage stand one behind the other. So the trees of two
phrases have no location in common, and neither have two nodes of one tree, except a subscript and
the array that its indices are collected in, which both stand at the one bracket
(`parse_locations`).

The values of a map are in the order of their keys, so of these no more can be said than that they
stand apart.
-/

set_option autoImplicit false

namespace EL

/-- The node stands at this token, and the token is of the kind that such a node stands at. -/
def Token.StandsFor (t : Token) (n : Expr) : Prop :=
  t.location = n.location ∧
    match n with
    | .literal _ _ | .var _ _ => t.atom? = some n
    | .unary op _ _ => t.kind = op.kind
    | .binary op _ _ _ => t.kind = op.kind
    | .array _ _ | .subscript _ _ _ => t.kind = .openBracket
    | .map _ _ => t.kind = .openBrace
    | .switch _ _ => t.kind = .openSwitch

theorem UnaryOp.kind_of_ofKind? {k : Kind} {op : UnaryOp} (h : ofKind? k = some op) :
    op.kind = k ∧ op ≠ .leftBoundedRange := by
  unfold ofKind? at h
  split at h <;> cases h <;> exact ⟨rfl, UnaryOp.noConfusion⟩

theorem Token.location_of_atom? {t : Token} {e : Expr} (h : t.atom? = some e) :
    t.location = e.location := by
  unfold atom? at h
  split at h
  case h_3 => split at h <;> cases h; rfl
  all_goals cases h
  all_goals rfl

namespace Expr

/-! ## The order of the source -/

/-- All nodes of one tree stand before all nodes of the other. -/
def Precedes (a b : Expr) : Prop := a.All fun m => b.All fun n => m.location < n.location

/-- No node of one tree stands where a node of the other does. -/
def Apart (a b : Expr) : Prop := a.All fun m => b.All fun n => m.location ≠ n.location

/-- The indices of a subscript stand behind its bracket. If they are collected in an array, only its
    elements do, and the array stands at the bracket too. -/
def IndexAt (l : Location) (i : Expr) : Prop :=
  (i.All fun n => l < n.location) ∨ ∃ es, i = array es l ∧ es.length ≠ 1

/-- What is below a node stands before it or behind it, as it is written, and the items of a list
    stand one behind the other. -/
def InOrder : Expr → Prop
  | literal _ _ | var _ _ => True
  | unary .leftBoundedRange e l => e.All fun n => n.location < l
  | unary _ e l => e.All fun n => l < n.location
  | binary _ a b l => (a.All fun n => n.location < l) ∧ b.All fun n => l < n.location
  | array es l | switch es l => (∀ e ∈ es, e.All fun n => l < n.location) ∧ es.Pairwise Precedes
  | map m l => (∀ kv ∈ m, kv.2.All fun n => l < n.location) ∧ m.Pairwise fun a b => a.2.Apart b.2
  | subscript a i l => (a.All fun n => n.location < l) ∧ i.IndexAt l

/-- Every node of the tree stands at one of these tokens, with what is below it in order. -/
def Placed (ts : List Token) (e : Expr) : Prop :=
  e.All fun n => (∃ t ∈ ts, t.StandsFor n) ∧ n.InOrder

end Expr

/-- The tokens stand one behind the other. -/
def Token.Sorted (ts : List Token) : Prop := ts.Pairwise fun t u => t.location < u.location

namespace Expr

section
variable {ts us vs : List Token} {t : Token} {a b e : Expr} {es : List Expr} {l : Location}

theorem Placed.mono (h : e.Placed ts) (hsub : ts ⊆ us) : e.Placed us := by
  refine All.imp (fun n hn => ?_) h
  obtain ⟨⟨t, ht, hstands⟩, hn⟩ := hn
  exact ⟨⟨t, hsub ht, hstands⟩, hn⟩

/-- What is known of the locations of tokens is known of the nodes that stand at them. -/
theorem Placed.all_location {P : Location → Prop} (h : e.Placed ts) (hP : ∀ t ∈ ts, P t.location) :
    e.All fun n => P n.location := by
  refine All.imp (fun n hn => ?_) h
  obtain ⟨⟨t, ht, hloc, -⟩, -⟩ := hn
  exact hloc ▸ hP t ht

theorem Placed.precedes (ha : a.Placed ts) (hb : b.Placed us) (h : Token.Sorted (ts ++ us)) :
    a.Precedes b :=
  ha.all_location (P := fun l => b.All fun n => l < n.location) fun t ht =>
    hb.all_location (P := fun l => t.location < l) fun u hu =>
      (List.pairwise_append.mp h).2.2 t ht u hu

theorem Placed.before (h : e.Placed ts) (hs : Token.Sorted (ts ++ t :: us)) :
    e.All fun n => n.location < t.location :=
  h.all_location (P := fun l => l < t.location) fun u hu =>
    (List.pairwise_append.mp hs).2.2 u hu t List.mem_cons_self

theorem Placed.behind (h : e.Placed ts) (hs : Token.Sorted (t :: ts)) :
    e.All fun n => t.location < n.location :=
  h.all_location (P := fun l => t.location < l) (List.pairwise_cons.mp hs).1

theorem Precedes.apart (h : a.Precedes b) : a.Apart b := by
  refine All.imp (fun m hm => All.imp (fun n hn heq => ?_) hm) h
  rw [heq] at hn
  exact Location.lt_irrefl _ hn

theorem Apart.symm (h : a.Apart b) : b.Apart a :=
  fun n hn m hm => (h m hm n hn).symm

end

/-! ## Nodes -/

section
variable {ts us vs : List Token} {t : Token} {a b e : Expr} {es : List Expr}
  {m : List (String × Expr)}

theorem placed_of_atom? (h : t.atom? = some e) : e.Placed [t] := by
  have hstands : t.StandsFor e := by
    refine ⟨Token.location_of_atom? h, ?_⟩
    rcases Token.eq_of_atom? h with ⟨v, loc, rfl⟩ | ⟨x, loc, rfl⟩ <;> exact h
  have hroot : ∃ u ∈ [t], u.StandsFor e := ⟨t, List.mem_singleton_self t, hstands⟩
  rcases Token.eq_of_atom? h with ⟨v, loc, rfl⟩ | ⟨x, loc, rfl⟩
  · exact all_literal.mpr ⟨hroot, trivial⟩
  · exact all_var.mpr ⟨hroot, trivial⟩

/-- A sign, a parenthesis or the dots of a range without a lower bound, and then what they belong
    to. -/
theorem Placed.unary {op : UnaryOp} (he : e.Placed ts) (hs : Token.Sorted (t :: ts))
    (hk : t.kind = op.kind) (hop : op ≠ .leftBoundedRange) :
    (Expr.unary op e t.location).Placed (t :: ts) := by
  have hbehind := he.behind hs
  refine all_unary.mpr
    ⟨⟨⟨t, List.mem_cons_self, rfl, hk⟩, ?_⟩, he.mono (List.subset_cons_self t ts)⟩
  cases op with
  | leftBoundedRange => exact absurd rfl hop
  | plus | minus | logicalNegation | bitwiseNegation | group | rightBoundedRange => exact hbehind

/-- A bound, and then the dots. -/
theorem Placed.leftBounded (he : e.Placed ts) (hs : Token.Sorted (ts ++ [t]))
    (hk : t.kind = .range) : (Expr.unary .leftBoundedRange e t.location).Placed (ts ++ [t]) :=
  all_unary.mpr ⟨⟨⟨t, by simp, rfl, hk⟩, he.before hs⟩, he.mono (List.subset_append_left ts [t])⟩

theorem Placed.binary {op : BinaryOp} (ha : a.Placed ts) (hb : b.Placed us)
    (hs : Token.Sorted (ts ++ t :: us)) (hk : t.kind = op.kind) :
    (Expr.binary op a b t.location).Placed (ts ++ t :: us) := by
  have horder : InOrder (Expr.binary op a b t.location) :=
    ⟨ha.before hs, hb.behind (List.pairwise_append.mp hs).2.1⟩
  refine all_binary.mpr ⟨⟨⟨t, by simp, rfl, hk⟩, horder⟩, ?_, ?_⟩
  · exact ha.mono (List.subset_append_left ts _)
  · exact hb.mono fun u hu => by simp [hu]

/-- The items of a list are placed at these tokens, one behind the other. -/
def PlacedList (ts : List Token) (es : List Expr) : Prop :=
  (∀ e ∈ es, e.Placed ts) ∧ es.Pairwise Precedes

theorem placedList_nil (ts : List Token) : PlacedList ts [] := ⟨List.forall_mem_nil _, .nil⟩

theorem PlacedList.cons (he : e.Placed ts) (hes : PlacedList us es)
    (hs : Token.Sorted (ts ++ t :: us)) : PlacedList (ts ++ t :: us) (e :: es) := by
  obtain ⟨hus, hpairs⟩ := hes
  have hsub : us ⊆ ts ++ t :: us := fun u hu => by simp [hu]
  have hskip : Token.Sorted (ts ++ us) :=
    hs.sublist ((List.sublist_cons_self t us).append_left ts)
  refine ⟨List.forall_mem_cons.mpr ⟨he.mono (List.subset_append_left ts _), fun x hx => ?_⟩,
    List.pairwise_cons.mpr ⟨fun x hx => ?_, hpairs⟩⟩
  · exact (hus x hx).mono hsub
  · exact he.precedes (hus x hx) hskip

theorem PlacedList.behind (h : PlacedList ts es) (hs : Token.Sorted (t :: ts)) :
    ∀ e ∈ es, e.All fun n => t.location < n.location :=
  fun e he => (h.1 e he).behind hs

theorem PlacedList.array (h : PlacedList ts es) (hs : Token.Sorted (t :: ts))
    (hk : t.kind = .openBracket) : (Expr.array es t.location).Placed (t :: ts) :=
  all_array.mpr ⟨⟨⟨t, List.mem_cons_self, rfl, hk⟩, h.behind hs, h.2⟩,
    fun e he => (h.1 e he).mono (List.subset_cons_self t ts)⟩

theorem PlacedList.switch (h : PlacedList ts es) (hs : Token.Sorted (t :: ts))
    (hk : t.kind = .openSwitch) : (Expr.switch es t.location).Placed (t :: ts) :=
  all_switch.mpr ⟨⟨⟨t, List.mem_cons_self, rfl, hk⟩, h.behind hs, h.2⟩,
    fun e he => (h.1 e he).mono (List.subset_cons_self t ts)⟩

/-- A single index stands behind the bracket, and an array of indices at the bracket. -/
theorem PlacedList.collect (h : PlacedList ts es) (hs : Token.Sorted (t :: ts))
    (hk : t.kind = .openBracket) :
    (Expr.collect es t.location).Placed (t :: ts) ∧
      (Expr.collect es t.location).IndexAt t.location := by
  unfold Expr.collect
  split
  · rename_i e
    have he := h.1 e (List.mem_singleton_self e)
    exact ⟨he.mono (List.subset_cons_self t ts), .inl (he.behind hs)⟩
  · rename_i hne
    refine ⟨h.array hs hk, .inr ⟨es, rfl, fun hlength => ?_⟩⟩
    obtain ⟨e, rfl⟩ := List.length_eq_one_iff.mp hlength
    exact hne e rfl

theorem Placed.subscript (ha : a.Placed vs) (h : PlacedList ts es)
    (hs : Token.Sorted (vs ++ t :: ts)) (hk : t.kind = .openBracket) :
    (Expr.subscript a (Expr.collect es t.location) t.location).Placed (vs ++ t :: ts) := by
  obtain ⟨hindex, hat⟩ := h.collect (List.pairwise_append.mp hs).2.1 hk
  refine all_subscript.mpr ⟨⟨⟨t, by simp, rfl, hk⟩, ha.before hs, hat⟩, ?_, ?_⟩
  · exact ha.mono (List.subset_append_left vs _)
  · exact hindex.mono (List.subset_append_right vs _)

/-- The values of a map are placed at these tokens, and apart from each other. -/
def PlacedEntries (ts : List Token) (m : List (String × Expr)) : Prop :=
  (∀ kv ∈ m, kv.2.Placed ts) ∧ m.Pairwise fun a b => a.2.Apart b.2

theorem placedEntries_nil (ts : List Token) : PlacedEntries ts [] := ⟨List.forall_mem_nil _, .nil⟩

theorem PlacedEntries.mono (h : PlacedEntries ts m) (hsub : ts ⊆ us) : PlacedEntries us m :=
  ⟨fun kv hkv => (h.1 kv hkv).mono hsub, h.2⟩

theorem PlacedEntries.map (h : PlacedEntries ts m) (hs : Token.Sorted (t :: ts))
    (hk : t.kind = .openBrace) : (Expr.map m t.location).Placed (t :: ts) :=
  all_map.mpr ⟨⟨⟨t, List.mem_cons_self, rfl, hk⟩, fun kv hkv => (h.1 kv hkv).behind hs, h.2⟩,
    fun kv hkv => (h.1 kv hkv).mono (List.subset_cons_self t ts)⟩

/-- What holds between any two values still does when one is put in that it holds for. -/
theorem pairwise_insertEntry {R : Expr → Expr → Prop} (hsymm : ∀ a b, R a b → R b a)
    (h : m.Pairwise fun a b => R a.2 b.2) (he : ∀ kv ∈ m, R kv.2 e) (key : String) :
    (insertEntry key e m).Pairwise fun a b => R a.2 b.2 := by
  induction m with
  | nil => exact List.pairwise_singleton _ _
  | cons first m ih =>
    obtain ⟨k, v⟩ := first
    obtain ⟨hv, hm⟩ := List.pairwise_cons.mp h
    obtain ⟨hve, hme⟩ := List.forall_mem_cons.mp he
    rw [insertEntry]
    split
    · exact List.pairwise_cons.mpr ⟨fun kv hkv => hsymm _ _ (he kv hkv), h⟩
    · split
      · exact List.pairwise_cons.mpr ⟨fun kv hkv => hsymm _ _ (hme kv hkv), hm⟩
      · refine List.pairwise_cons.mpr ⟨fun kv hkv => ?_, ih hm hme⟩
        rcases mem_insertEntry hkv with rfl | hkv
        · exact hve
        · exact hv kv hkv

theorem PlacedEntries.insert (h : PlacedEntries vs m) (he : e.Placed ts)
    (hs : Token.Sorted (vs ++ ts)) (key : String) :
    PlacedEntries (vs ++ ts) (insertEntry key e m) := by
  refine ⟨fun kv hkv => ?_, pairwise_insertEntry (R := Apart) (fun _ _ => Apart.symm) h.2 ?_ key⟩
  · rcases mem_insertEntry hkv with rfl | hkv
    · exact he.mono (List.subset_append_right vs ts)
    · exact (h.1 kv hkv).mono (List.subset_append_left vs ts)
  · exact fun kv hkv => ((h.1 kv hkv).precedes he hs).apart

end

end Expr

namespace Grammar

/-- What a phrase makes is placed at its tokens; for what continues a tree or a map, at these and
    those of what it continues. -/
def Phrase.Placed (p : Phrase) (ts : List Token) : Prop :=
  match p with
  | .expression e | .term e | .item _ e | .operand e | .simple e => Token.Sorted ts → e.Placed ts
  | .tail e e' | .subscripts e e' =>
    ∀ vs, Token.Sorted (vs ++ ts) → e.Placed vs → e'.Placed (vs ++ ts)
  | .listing _ es | .items _ es => Token.Sorted ts → Expr.PlacedList ts es
  | .entries m m' =>
    ∀ vs, Token.Sorted (vs ++ ts) → Expr.PlacedEntries vs m → Expr.PlacedEntries (vs ++ ts) m'

section
variable {ts us vs : List Token} {o c t n : Token} {e e' : Expr} {m : List (String × Expr)}

/-- Parentheses with their tokens, and what goes on from them. -/
theorem placed_group (hs : Token.Sorted (o :: (ts ++ c :: us))) (ho : o.kind = .openParen)
    (he : Token.Sorted ts → e.Placed ts)
    (hu : (Phrase.tail (.unary .group e o.location) e').Placed us) :
    e'.Placed (o :: (ts ++ c :: us)) := by
  have hsorted : Token.Sorted (o :: ts) := hs.sublist ((List.sublist_append_left ts _).cons_cons o)
  have hgroup : (Expr.unary .group e o.location).Placed (o :: ts) :=
    (he (List.pairwise_cons.mp hsorted).2).unary hsorted ho UnaryOp.noConfusion
  have hclosed := hgroup.mono (List.cons_subset_cons o (List.subset_append_left ts [c]))
  simpa using hu (o :: (ts ++ [c])) (by simpa using hs) hclosed

/-- An entry with its tokens, in front of more of them. -/
theorem placed_entry (hs : Token.Sorted (vs ++ t :: n :: (ts ++ c :: us)))
    (he : Token.Sorted ts → e.Placed ts) (hm : Expr.PlacedEntries vs m) (key : String) :
    Expr.PlacedEntries (vs ++ t :: n :: (ts ++ [c])) (Expr.insertEntry key e m) := by
  have hsub : (vs ++ ts).Sublist (vs ++ t :: n :: (ts ++ c :: us)) :=
    (((List.sublist_append_left ts _).cons n).cons t).append_left vs
  have hsorted : Token.Sorted (vs ++ ts) := hs.sublist hsub
  have hput := hm.insert (he (List.pairwise_append.mp hsorted).2.1) hsorted key
  exact hput.mono fun u hu => by
    rcases List.mem_append.mp hu with hu | hu <;> simp [hu]

/-- **Every phrase is placed at its tokens.** A rule puts its own token between the tokens of its
    parts, and what that token stands for is placed as the parts are. -/
theorem Derives.placed {π : Policy} {limit : Option Nat} {b : Nat} {p : Phrase} {k : Kind}
    (h : Derives π limit b p ts k) : p.Placed ts := by
  induction h with
  | grouped ho _ _ _ iht ihu | parens ho _ _ _ _ iht ihu =>
    exact fun hs => placed_group hs ho iht ihu
  | ungrouped _ _ ih | bare _ ih | someItems _ _ ih => exact ih
  | chain _ _ iho ihu | subscripted _ _ _ _ iho ihu =>
    exact fun hs => ihu _ hs (iho (List.pairwise_append.mp hs).1)
  | tailEnd | subscriptsEnd =>
    intro vs _ he
    rwa [List.append_nil]
  | @tailMore b t ts us _ _ _ _ _ ht _ _ ihr ihu =>
    intro vs hs he
    have hsorted : Token.Sorted (vs ++ t :: ts) :=
      hs.sublist (((List.sublist_append_left ts us).cons_cons t).append_left vs)
    have hr := ihr (List.pairwise_cons.mp (List.pairwise_append.mp hsorted).2.1).2
    have hbinary := he.binary hr hsorted (BinaryOp.kind_of_ofKind? ht).symm
    simpa using ihu (vs ++ t :: ts) (by simpa using hs) hbinary
  | switch _ ho _ ih =>
    exact fun hs => (ih (List.pairwise_cons.mp hs).2).switch hs ho
  | atom ht => exact fun _ => Expr.placed_of_atom? ht
  | sign ht _ ih =>
    obtain ⟨hk, hop⟩ := UnaryOp.kind_of_ofKind? ht
    exact fun hs => (ih (List.pairwise_cons.mp hs).2).unary hs hk.symm hop
  | array ho _ ih => exact fun hs => (ih (List.pairwise_cons.mp hs).2).array hs ho
  | emptyMap ho _ => exact fun hs => (Expr.placedEntries_nil _).map hs ho
  | map ho _ ih =>
    intro hs
    have hm := ih [] (List.pairwise_cons.mp hs).2 (Expr.placedEntries_nil [])
    exact hm.map hs ho
  | @subscriptsMore b o ts us _ _ _ _ ho _ _ ihs ihu =>
    intro vs hs he
    have hsorted : Token.Sorted (vs ++ o :: ts) :=
      hs.sublist (((List.sublist_append_left ts us).cons_cons o).append_left vs)
    have hes := ihs (List.pairwise_cons.mp (List.pairwise_append.mp hsorted).2.1).2
    simpa using ihu (vs ++ o :: ts) (by simpa using hs) (he.subscript hes hsorted ho)
  | noItems => exact fun _ => Expr.placedList_nil _
  | lastItem _ _ ih =>
    exact fun hs => (Expr.placedList_nil []).cons (ih (List.pairwise_append.mp hs).1) hs
  | moreItems _ _ _ ihi ihs =>
    intro hs
    obtain ⟨hts, hus, -⟩ := List.pairwise_append.mp hs
    exact (ihs (List.pairwise_cons.mp hus).2).cons (ihi hts) hs
  | bounded _ ht _ ihl ihh | boundedIndex _ ht _ _ ihl ihh =>
    intro hs
    obtain ⟨hts, hus, -⟩ := List.pairwise_append.mp hs
    exact (ihl hts).binary (ihh (List.pairwise_cons.mp hus).2) hs ht
  | leftBounded _ ht ih => exact fun hs => (ih (List.pairwise_append.mp hs).1).leftBounded hs ht
  | rightBounded ht _ ih =>
    exact fun hs => (ih (List.pairwise_cons.mp hs).2).unary hs ht UnaryOp.noConfusion
  | lastEntry _ _ _ _ ih => exact fun vs hs hm => placed_entry hs ih hm _
  | @moreEntries b t n c ts us _ key _ _ _ _ _ _ _ _ ihe ihm =>
    intro vs hs hm
    have hput := placed_entry hs ihe hm key
    simpa using ihm (vs ++ t :: n :: (ts ++ [c])) (by simpa using hs) hput

end

end Grammar

namespace Expr

/-! ## Different nodes -/

/-- The one node is a subscript, and the other the array that its indices are collected in. -/
def Collects (m n : Expr) : Prop :=
  ∃ a es l, m = subscript a (array es l) l ∧ n = array es l ∧ es.length ≠ 1

section
variable {e i : Expr} {l : Location}

theorem ne_of_before (h : e.All fun n => n.location < l) : e.All fun n => l ≠ n.location :=
  All.imp (fun _ hn heq => Location.lt_irrefl _ (heq ▸ hn)) h

theorem ne_of_behind (h : e.All fun n => l < n.location) : e.All fun n => l ≠ n.location :=
  All.imp (fun _ hn heq => Location.lt_irrefl _ (heq ▸ hn)) h

/-- Only the array of the indices itself is not behind the bracket. -/
theorem IndexAt.all (h : i.IndexAt l) (hi : i.InOrder) :
    i.All fun n => l < n.location ∨ n = i ∧ ∃ es, i = array es l ∧ es.length ≠ 1 := by
  rcases h with h | ⟨es, rfl, hes⟩
  · exact h.imp fun _ => .inl
  · exact all_array.mpr ⟨.inr ⟨rfl, es, rfl, hes⟩, fun e he => (hi.1 e he).imp fun _ => .inl⟩

/-- Nothing below a node stands where the node does, except an array of indices. -/
theorem InOrder.apart_root (h : e.InOrder) (hc : ∀ c ∈ e.children, c.InOrder) :
    ∀ c ∈ e.children, c.All fun n => e.location = n.location → e.Collects n := by
  -- In all other cases the locations differ.
  have hne : ∀ {c : Expr}, (c.All fun n => e.location ≠ n.location) →
      c.All fun n => e.location = n.location → e.Collects n :=
    fun hc => hc.imp fun _ hn heq => absurd heq hn
  intro c hmem
  cases e with
  | literal | var => cases hmem
  | unary op =>
    obtain rfl := List.mem_singleton.mp hmem
    refine hne ?_
    cases op with
    | leftBoundedRange => exact ne_of_before h
    | plus | minus | logicalNegation | bitwiseNegation | group | rightBoundedRange =>
      exact ne_of_behind h
  | binary _ a b =>
    obtain ⟨ha, hb⟩ := h
    rcases List.mem_pair.mp hmem with rfl | rfl
    · exact hne (ne_of_before ha)
    · exact hne (ne_of_behind hb)
  | array | switch => exact hne (ne_of_behind (h.1 c hmem))
  | map m =>
    obtain ⟨kv, hkv, rfl⟩ := List.mem_map.mp hmem
    exact hne (ne_of_behind (h.1 kv hkv))
  | subscript a i l =>
    obtain ⟨ha, hi⟩ := h
    rcases List.mem_pair.mp hmem with rfl | rfl
    · exact hne (ne_of_before ha)
    · refine (hi.all (hc _ hmem)).imp fun n hn heq => ?_
      rcases hn with hlt | ⟨rfl, es, rfl, hes⟩
      · exact absurd (heq ▸ hlt) (Location.lt_irrefl _)
      · exact ⟨a, es, l, rfl, rfl, hes⟩

/-- The trees directly below a node stand apart. -/
theorem InOrder.apart_children (h : e.InOrder) (hc : ∀ c ∈ e.children, c.InOrder) :
    e.children.Pairwise Apart := by
  cases e with
  | literal | var => exact .nil
  | unary => exact List.pairwise_singleton _ _
  | binary _ a b l =>
    obtain ⟨ha, hb⟩ := h
    have hpair : a.Precedes b :=
      ha.imp fun m hm => hb.imp fun n hn => Location.lt_trans hm hn
    exact List.pairwise_pair.mpr hpair.apart
  | array | switch => exact h.2.imp Precedes.apart
  | map m => exact List.pairwise_map.mpr h.2
  | subscript a i l =>
    obtain ⟨ha, hi⟩ := h
    have hpair : a.Precedes i := by
      refine ha.imp fun m hm => (hi.all (hc i (by simp [children]))).imp fun n hn => ?_
      rcases hn with hlt | ⟨rfl, es, rfl, -⟩
      · exact Location.lt_trans hm hlt
      · exact hm
    exact List.pairwise_pair.mpr hpair.apart

end

/-- **No two nodes of a tree in order stand at one place**, except a subscript and the array of its
    indices. -/
theorem pairwise_nodes (e : Expr) (h : e.All InOrder) :
    (e.nodes.map (·.2)).Pairwise fun m n => m.location = n.location → m.Collects n := by
  have hroots : ∀ c ∈ e.children, c.InOrder := fun c hc => (h.child hc).root
  have hall : ∀ {P : Expr → Prop} {c : Expr}, c.All P → ∀ x ∈ c.nodes.map (·.2), P x :=
    fun hc => List.forall_mem_map.mpr hc
  rw [map_nodes, List.pairwise_cons, List.pairwise_flatMap]
  refine ⟨fun n hn => ?_, fun c hc => ?_, ?_⟩
  · obtain ⟨c, hc, hn⟩ := List.mem_flatMap.mp hn
    exact hall (h.root.apart_root hroots c hc) n hn
  · have := sizeOf_lt_of_mem_children hc
    exact pairwise_nodes c (h.child hc)
  · refine (h.root.apart_children hroots).imp fun hapart m hm n hn heq => ?_
    exact absurd heq (hall (hall hapart m hm) n hn)
termination_by sizeOf e

end Expr

/-- **Nodes stand at their tokens, and in the order of the source.** Every node of a tree that is
    read stands at a token that was read for it, of the kind that fits it. What is below a node stands
    before or behind it, and no two nodes stand at one place, except a subscript and the array that no
    index or several are collected in. -/
theorem parse_locations {c stop : Cursor} {o : ParseOptions} {e : Expr}
    (h : c.parse o = (.ok e, stop)) :
    ∃ ts, c.Reads ts stop ∧ (e.All fun n => (∃ t ∈ ts, t.StandsFor n) ∧ n.InOrder) ∧
      (e.nodes.map (·.2)).Pairwise fun m n => m.location = n.location → m.Collects n := by
  obtain ⟨ts, t, after, ha⟩ := Parser.exists_accepts_of_parse h
  have hplaced : e.Placed ts := ha.derives.placed ha.reads.pairwise_location
  exact ⟨ts, ha.reads, hplaced, e.pairwise_nodes (hplaced.imp fun _ hn => hn.2)⟩

/-- The subscript and its array of indices stand at the bracket, behind the target and before what
    they hold; the lower bound stands before its dots, and the name behind its parenthesis. -/
theorem parse_locations_indices :
    ∃ e stop ts, (Cursor.ofText "x[a.., b] - (c)").parse {} = (.ok e, stop) ∧
      e = .binary .subtraction
        (.subscript (.var "x" ⟨1, 1⟩)
          (.array [.unary .leftBoundedRange (.var "a" ⟨1, 3⟩) ⟨1, 4⟩, .var "b" ⟨1, 8⟩] ⟨1, 2⟩)
          ⟨1, 2⟩)
        (.unary .group (.var "c" ⟨1, 14⟩) ⟨1, 13⟩) ⟨1, 11⟩ ∧
      (Cursor.ofText "x[a.., b] - (c)").Reads ts stop ∧
      (e.All fun n => (∃ t ∈ ts, t.StandsFor n) ∧ n.InOrder) ∧
      (e.nodes.map (·.2)).Pairwise fun m n => m.location = n.location → m.Collects n := by
  have htree : ((Cursor.ofText "x[a.., b] - (c)").parse {}).1 =
      .ok (.binary .subtraction
        (.subscript (.var "x" ⟨1, 1⟩)
          (.array [.unary .leftBoundedRange (.var "a" ⟨1, 3⟩) ⟨1, 4⟩, .var "b" ⟨1, 8⟩] ⟨1, 2⟩)
          ⟨1, 2⟩)
        (.unary .group (.var "c" ⟨1, 14⟩) ⟨1, 13⟩) ⟨1, 11⟩) :=
    parse_strict_iff.mpr ⟨_, Cursor.tokens_of_scanWithin 12 rfl, rfl⟩
  have hparse := Prod.ext (x := (Cursor.ofText "x[a.., b] - (c)").parse {}) (y := (_, _)) htree rfl
  obtain ⟨ts, hreads, hplaced, hpairs⟩ := parse_locations hparse
  exact ⟨_, _, ts, hparse, rfl, hreads, hplaced, hpairs⟩

end EL
