import EL.Proofs.Grammar.Contexts

/-!
# A printed tree is derived again

From a derivation of a tree comes one of the tokens that the tree is printed as, **by the same rules,
for the same tree and at no greater depth** (`Derives.reprint`). Brackets around the array that is the
only index of a subscript are lost on the way, and then the elements of the array are derived as
indices.

There an upper bound of a range may not begin with a switch, though in an array it may. So either no
subscript lists such a range (`Expr.ListsRangeTo`), or the new derivation makes a choice that the
parser does not make. `Policy.relaxed` leaves that choice open, or keeps it closed on a condition.
-/

set_option autoImplicit false

namespace EL

open EL.Parser (Shape)

namespace Expr

/-- A range whose upper bound has this property. -/
def RangeTo (B : Expr → Prop) : Expr → Prop
  | binary .boundedRange _ hi _ => B hi
  | _ => False

theorem RangeTo.isRange {B : Expr → Prop} {e : Expr} (h : e.RangeTo B) : e.IsRange := by
  unfold RangeTo at h
  split at h
  · exact trivial
  · cases h

/-- A subscript with several indices, among them a range whose upper bound has this property. -/
def ListsRangeTo (B : Expr → Prop) : Expr → Prop
  | subscript _ (array es _) _ => 2 ≤ es.length ∧ ∃ e ∈ es, e.RangeTo B
  | _ => False

/-- The tree is printed with the braces of a switch first. -/
def OpensSwitch (e : Expr) : Prop := Grammar.ahead e.tokens .endOfInput = .openSwitch

/-- Under this condition, the node lists no range up to a switch. -/
def Kept (q : Prop) (e : Expr) : Prop := q → ¬ e.ListsRangeTo OpensSwitch

/-! ## Trees without places -/

theorem bare_array (es : List Expr) (loc : Location) :
    (array es loc).bare = array (es.map bare) .origin :=
  congrArg (array · .origin) (relocateList_eq _ es)

theorem bare_switch (es : List Expr) (loc : Location) :
    (switch es loc).bare = switch (es.map bare) .origin :=
  congrArg (switch · .origin) (relocateList_eq _ es)

/-- The entries of a map, and nothing of where they stand. -/
def bareEntries (m : List (String × Expr)) : List (String × Expr) :=
  m.map fun kv => (kv.1, kv.2.bare)

theorem bare_map (m : List (String × Expr)) (loc : Location) :
    (map m loc).bare = map (bareEntries m) .origin :=
  congrArg (map · .origin) (relocateEntries_eq _ m)

theorem bare_collect (es : List Expr) (loc : Location) :
    (collect es loc).bare = collect (es.map bare) .origin := by
  match es with
  | [] => rfl
  | [_] => rfl
  | _ :: _ :: _ => exact bare_array _ loc

theorem tokens_bare (e : Expr) : e.bare.tokens = e.tokens := tokens_relocate _ e

theorem ordered_bareEntries {m : List (String × Expr)} (h : Ordered m) : Ordered (bareEntries m) :=
  List.pairwise_map.mpr h

end Expr

namespace Grammar

/-- The choices of the parser, but in a subscript the upper bound of a range may begin with anything,
    or under this condition with anything but a switch. -/
def Policy.relaxed (q : Prop) : Policy :=
  { Policy.longest with beginsUpper := fun k => q → k ≠ .openSwitch }

variable {q : Prop} {limit : Option Nat} {b : Nat} {ts : List Token} {k : Kind}

/-- What ends before a comma ends before any token that can end an expression. -/
theorem Policy.relaxed_endsAs {k k' : Kind} (hop : BinaryOp.ofKind? k' = none)
    (hopen : k' ≠ .openBracket) : (Policy.relaxed q).EndsAs k k' :=
  ⟨fun _ => hop, fun _ => hopen⟩

/-! ## Entries -/

/-- The tokens are a key, a colon, and an expression, before what can follow an entry. -/
def IsEntry (π : Policy) (limit : Option Nat) (b : Nat) (ts : List Token) (kv : String × Expr) :
    Prop :=
  ∃ t us, ts = t :: .symbol .colon :: us ∧ t.key? = some kv.1 ∧
    ∀ k, k = .comma ∨ k = .closeBrace → Derives π limit (b + 1) (.expression kv.2) us k

/-- Entries with commas between them are put one by one into any map. -/
theorem derives_entries {π : Policy} {tss : List (List Token)} {kvs : List (String × Expr)}
    (h : List.Forall₂ (IsEntry π limit b) tss kvs) (hne : tss ≠ []) (m : List (String × Expr)) :
    Derives π limit b (.entries m (Expr.insertEntries m kvs))
      (Token.join tss ++ [.symbol .closeBrace]) k := by
  induction h generalizing m with
  | nil => exact absurd rfl hne
  | @cons ts kv tss kvs hentry hentries ih =>
    obtain ⟨t, us, rfl, ht, he⟩ := hentry
    cases hentries with
    | nil =>
      exact .lastEntry (n := .symbol .colon) (c := .symbol .closeBrace) ht rfl (he _ (.inr rfl)) rfl
    | cons =>
      have hmore := Derives.moreEntries (m := m) (n := .symbol .colon) (c := .symbol .comma) ht rfl
        (he _ (.inl rfl)) rfl (ih (List.cons_ne_nil _ _) _)
      rw [join_cons (List.cons_ne_nil _ _), List.append_assoc]
      exact hmore

/-- The tokens that entries are printed as are entries, if their values are derived again. -/
theorem isEntry_entriesTokens {m : List (String × Expr)}
    (hv : ∀ kv ∈ m,
      Derives (.relaxed q) limit (b + 1) (.expression kv.2.bare) kv.2.tokens .comma) :
    List.Forall₂ (IsEntry (.relaxed q) limit b) (Expr.entriesTokens m) (Expr.bareEntries m) := by
  induction m with
  | nil => exact .nil
  | cons kv m ih =>
    obtain ⟨key, e⟩ := kv
    obtain ⟨he, hv⟩ := List.forall_mem_cons.mp hv
    have hkey : Token.key? ⟨.string, Text.escapeString key, 0, .origin⟩ = some key := by
      simp [Token.key?, Text.unescapeString, Text.escapeString, Text.unescape_escape]
    refine .cons ⟨_, e.tokens, rfl, hkey, ?_⟩ (ih hv)
    rintro k (rfl | rfl)
    · exact he
    · exact he.adapt (Nat.le_refl _) (Policy.relaxed_endsAs rfl (by decide))

theorem Derives.entries_of_ordered {m : List (String × Expr)} (hm : m ≠ []) (hord : Expr.Ordered m)
    (hv : ∀ kv ∈ m,
      Derives (.relaxed q) limit (b + 1) (.expression kv.2.bare) kv.2.tokens .comma) :
    Derives (.relaxed q) limit b (.entries [] (Expr.bareEntries m))
      (Token.join (Expr.entriesTokens m) ++ [.symbol .closeBrace]) k := by
  have hentries := derives_entries (k := k) (isEntry_entriesTokens hv) (entriesTokens_ne_nil hm) []
  rwa [Expr.insertEntries_of_ordered (Expr.ordered_bareEntries hord)] at hentries

/-! ## Indices -/

/-- Elements that are printed without the brackets of their array are derived as indices. -/
theorem Derives.indices_of_array {x : Expr} {es : List Expr} {loc : Location}
    (h : Derives (.relaxed q) limit b (.listing (.index x) [(Expr.array es loc).bare])
      ((Expr.array es loc).tokens ++ [.symbol .closeBracket]) k)
    (hes : q → ¬ ∃ e ∈ es, e.RangeTo Expr.OpensSwitch) :
    Derives (.relaxed q) limit b (.listing (.index x) (es.map Expr.bare))
      (Token.join (Expr.listTokens es) ++ [.symbol .closeBracket]) k := by
  rw [Expr.bare_array] at h
  obtain ⟨o, us, c, heq, hs⟩ := h.listing_of_sole
  obtain ⟨-, hus⟩ := List.cons.inj heq
  obtain ⟨rfl, -⟩ := List.append_inj' hus rfl
  refine (hs.adapt (Nat.le_succ b) (.refl _)).listing_index k x fun lo hi loc hmem hq hopen => ?_
  obtain ⟨e, he, hbare⟩ := List.mem_map.mp hmem
  cases e with
  | binary op lo' hi' =>
    cases hbare
    rw [← Expr.bare, Expr.tokens_bare] at hopen
    exact hes hq ⟨_, he, hopen⟩
  | literal | var | unary | array | map | switch | subscript => cases hbare

/-- The index of a subscript is derived from what is printed between the brackets. -/
theorem Derives.indices {x e : Expr} {es : List Expr} {loc : Location}
    (h : Derives (.relaxed q) limit b (.listing (.index x) (es.map Expr.bare))
      (Token.join (Expr.listTokens es) ++ [.symbol .closeBracket]) k)
    (hkept : (Expr.subscript e (.collect es loc) loc).Kept q) :
    ∃ es', Expr.collect es' .origin = (Expr.collect es loc).bare ∧
      Derives (.relaxed q) limit b (.listing (.index x) es')
        ((Expr.collect es loc).indexTokens ++ [.symbol .closeBracket]) k := by
  match es with
  | [] => exact ⟨_, rfl, h⟩
  | i :: j :: r => exact ⟨_, (Expr.bare_collect _ _).symm, h⟩
  | [.array [] l] => exact ⟨_, rfl, h.indices_of_array fun _ hes => by simp at hes⟩
  | [.array [y] l] => exact ⟨_, rfl, h⟩
  | [.array (y :: z :: r) l] =>
    have hbare : (Expr.array (y :: z :: r) l).bare = _ := Expr.bare_array _ l
    refine ⟨(y :: z :: r).map Expr.bare, hbare.symm, h.indices_of_array fun hq hes => ?_⟩
    exact hkept hq ⟨by simp, hes⟩
  | [.literal ..] | [.var ..] | [.unary ..] | [.binary ..] | [.map ..] | [.switch ..]
  | [.subscript ..] => exact ⟨_, rfl, h⟩

/-! ## Derivations -/

/-- The phrase without places. -/
def Phrase.bare : Phrase → Phrase
  | .expression e => .expression e.bare
  | .term e => .term e.bare
  | .tail e e' => .tail e.bare e'.bare
  | .operand e => .operand e.bare
  | .simple e => .simple e.bare
  | .subscripts e e' => .subscripts e.bare e'.bare
  | .listing s es => .listing (s.relocate fun _ => .origin) (es.map Expr.bare)
  | .items s es => .items (s.relocate fun _ => .origin) (es.map Expr.bare)
  | .item s e => .item (s.relocate fun _ => .origin) e.bare
  | .entries m m' => .entries (Expr.bareEntries m) (Expr.bareEntries m')

/-- The value of an entry, wherever in its map it will be printed. -/
def ReprintsValue (q : Prop) (limit : Option Nat) (b : Nat) (e : Expr) : Prop :=
  e.All (Expr.Kept q) → Derives (.relaxed q) limit (b + 1) (.expression e.bare) e.tokens .comma

/-- What a phrase is printed as can be derived as the phrase, if the nodes of its trees are kept. -/
def Phrase.Reprints (q : Prop) (limit : Option Nat) (b : Nat) (p : Phrase) (k : Kind) : Prop :=
  match p with
  | .expression e | .term e | .operand e | .simple e | .item _ e =>
    e.All (Expr.Kept q) → Derives (.relaxed q) limit b p.bare e.tokens k
  | .tail e e' | .subscripts e e' => e'.All (Expr.Kept q) → e.All (Expr.Kept q) ∧
    ∃ us, e'.tokens = e.tokens ++ us ∧ Derives (.relaxed q) limit b p.bare us k
  | .listing s es | .items s es => (∀ e ∈ es, e.All (Expr.Kept q)) →
    Derives (.relaxed q) limit b p.bare
      (Token.join (Expr.listTokens es) ++ [.symbol s.closer]) k
  -- Entries are printed in another order than they came in.
  | .entries m m' => m' ≠ [] ∧ (Expr.Ordered m → Expr.Ordered m') ∧
    ((∀ kv ∈ m, ReprintsValue q limit b kv.2) → ∀ kv ∈ m', ReprintsValue q limit b kv.2)

/-- What is printed behind a tree that is gone on with begins as what was read there. -/
theorem ahead_of_outline {e e' : Expr} {us vs : List Token} (hus : e'.tokens = e.tokens ++ us)
    (h : (Phrase.tail e e').Outline vs ∨ (Phrase.subscripts e e').Outline vs) :
    ahead us = ahead vs := by
  obtain ⟨ws, hws, h, -⟩ | ⟨ws, hws, h, -⟩ := h <;>
  · rw [hus] at hws
    rw [List.append_cancel_left hws, h]

/-- **The tokens of a printed tree are derived as the tree.** -/
theorem Derives.reprint {p : Phrase} (h : Derives .longest limit b p ts k) :
    p.Reprints q limit b k := by
  induction h with
  | grouped ho hc ht hu iht ihu =>
    intro h
    obtain ⟨hgroup, us, heq, hus⟩ := ihu h
    obtain ⟨-, he⟩ := Expr.all_unary.mp hgroup
    rw [heq, Expr.tokens, Expr.unaryTokens, Token.enclose, List.cons_append, List.append_assoc]
    exact .grouped (o := .symbol .openParen) (c := .symbol .closeParen) rfl rfl (iht he) hus
  | ungrouped hk ht ih =>
    intro h
    rw [← ht.outline.1 _ _] at hk
    exact .ungrouped hk (ih h)
  | chain ho hu iho ihu =>
    intro h
    obtain ⟨he, us, heq, hus⟩ := ihu h
    have hoperand := iho he
    rw [heq]
    rw [← ahead_of_outline heq (.inl hu.outline)] at hoperand
    exact .chain hoperand hus
  | tailEnd => exact fun h => ⟨h, [], (List.append_nil _).symm, .tailEnd⟩
  | @tailMore b t ts us k op e r e' ht hr hu ihr ihu =>
    intro h
    obtain ⟨hbinary, us, heq, hus⟩ := ihu h
    obtain ⟨-, he, hr'⟩ := Expr.all_binary.mp hbinary
    have hoperand := ihr hr'
    rw [← ahead_of_outline heq (.inl hu.outline)] at hoperand
    refine ⟨he, .symbol op.kind :: (r.tokens ++ us), ?_, ?_⟩
    · rw [heq, Expr.tokens]
      simp
    · have hkind := BinaryOp.kind_of_ofKind? ht
      exact .tailMore (t := .symbol op.kind) (hkind ▸ ht) hoperand hus
  | subscripted hb hs hu hk ihs ihu =>
    intro h
    obtain ⟨he, us, heq, hus⟩ := ihu h
    have hsimple := ihs he
    rw [heq]
    rw [← ahead_of_outline heq (.inr hu.outline)] at hsimple
    exact .subscripted hb hsimple hus hk
  | switch hb ho _ ih =>
    intro h
    have hlist := ih (Expr.all_switch.mp h).2
    rw [Phrase.bare, Expr.bare_switch]
    exact .switch (o := .symbol .openSwitch) hb rfl hlist
  | atom ht =>
    intro _
    obtain ⟨u, htokens, -, hatom⟩ := Token.atom?_reprint ht
    rw [htokens]
    exact .atom hatom
  | @sign b t ts k op e ht _ ih =>
    intro h
    obtain ⟨hkind, htokens⟩ := UnaryOp.tokens_of_ofKind? ht e.tokens
    rw [Expr.tokens, htokens]
    exact .sign (t := .symbol op.kind) (hkind ▸ ht) (ih (Expr.all_unary.mp h).2)
  | parens ho hc ht hu hk iht ihu =>
    intro h
    obtain ⟨hgroup, us, heq, hus⟩ := ihu h
    obtain ⟨-, he⟩ := Expr.all_unary.mp hgroup
    rw [heq, Expr.tokens, Expr.unaryTokens, Token.enclose, List.cons_append, List.append_assoc]
    exact .parens (o := .symbol .openParen) (c := .symbol .closeParen) rfl rfl (iht he) hus hk
  | array ho _ ih =>
    intro h
    have hlist := ih (Expr.all_array.mp h).2
    rw [Phrase.bare, Expr.bare_array]
    exact .array (o := .symbol .openBracket) rfl hlist
  | emptyMap =>
    exact fun _ => .emptyMap (o := .symbol .openBrace) (c := .symbol .closeBrace) rfl rfl
  | map ho _ ih =>
    intro h
    obtain ⟨hne, hord, hv⟩ := ih
    have hvalues := fun kv hkv => hv (List.forall_mem_nil _) kv hkv ((Expr.all_map.mp h).2 kv hkv)
    rw [Phrase.bare, Expr.bare_map]
    exact .map (o := .symbol .openBrace) rfl
      (.entries_of_ordered hne (hord .nil) hvalues)
  | subscriptsEnd => exact fun h => ⟨h, [], (List.append_nil _).symm, .subscriptsEnd⟩
  | @subscriptsMore b o ts us k e e' es ho _ hu ihs ihu =>
    intro h
    obtain ⟨hsubscript, us, heq, hus⟩ := ihu h
    obtain ⟨hkept, he, hes⟩ := Expr.all_subscript.mp hsubscript
    obtain ⟨es', hcollect, hlist⟩ := (ihs (all_of_collect hes)).indices hkept
    rw [← ahead_of_outline heq (.inr hu.outline)] at hlist
    refine ⟨he, Token.enclose .openBracket (Expr.collect es o.location).indexTokens .closeBracket ++ us,
      ?_, ?_⟩
    · rw [heq, Expr.tokens_subscript, List.append_assoc]
    · refine .subscriptsMore (o := .symbol .openBracket) rfl hlist ?_
      change Derives _ _ _ (.subscripts (.subscript e.bare (.collect es' .origin) .origin) _) us k
      rw [hcollect]
      exact hus
  | noItems => exact fun _ => .noItems (Shape.closer_relocate ..).symm
  | @someItems b s ts k es hs hi ih =>
    intro h
    refine .someItems (fun hswitch => ?_) (ih h)
    rw [ahead_append, hi.outline.2 _ k]
    refine hs ?_
    cases s <;> first | rfl | cases hswitch
  | lastItem _ _ ih =>
    intro h
    have hitem := ih (List.forall_mem_singleton.mp h)
    rw [← Shape.closer_relocate] at hitem
    exact .lastItem hitem (Shape.closer_relocate ..).symm
  | @moreItems b s ts us c k e es _ _ hs ihi ihs =>
    intro h
    obtain ⟨he, hes⟩ := List.forall_mem_cons.mp h
    rw [Expr.listTokens, join_cons (listTokens_ne_nil hs.outline.1), List.append_assoc]
    exact .moreItems (c := .symbol .comma) (ihi he) rfl (ihs hes)
  | bare _ ih => exact fun h => .bare (ih h)
  | bounded _ _ _ ihl ihh =>
    intro h
    obtain ⟨-, hlo, hhi⟩ := Expr.all_binary.mp h
    exact .bounded (t := .symbol .range) (ihl hlo) rfl (ihh hhi)
  | boundedIndex _ _ hk hh ihl ihh =>
    intro h
    obtain ⟨-, hlo, hhi⟩ := Expr.all_binary.mp h
    refine .boundedIndex (t := .symbol .range) (ihl hlo) rfl (fun _ hopen => ?_) (ihh hhi)
    rw [← hh.outline.1 _ _, hopen] at hk
    exact absurd hk (show ¬ Kind.openSwitch ∈ TokenSet.simpleTerm by decide)
  | leftBounded _ _ ih =>
    exact fun h => .leftBounded (t := .symbol .range) (ih (Expr.all_unary.mp h).2) rfl
  | rightBounded _ _ ih =>
    exact fun h => .rightBounded (t := .symbol .range) rfl (ih (Expr.all_unary.mp h).2)
  | lastEntry _ _ _ _ ih =>
    refine ⟨Expr.insertEntry_ne_nil, Expr.ordered_insertEntry, fun hm kv hkv => ?_⟩
    rcases Expr.mem_insertEntry hkv with rfl | hkv
    · exact fun h => (ih h).adapt (Nat.le_refl _) (Policy.relaxed_endsAs rfl (by decide))
    · exact hm kv hkv
  | moreEntries _ _ _ _ _ ihe ihm =>
    obtain ⟨hne, hord, hv⟩ := ihm
    refine ⟨hne, fun hm => hord (Expr.ordered_insertEntry hm), fun hm => hv fun kv hkv => ?_⟩
    rcases Expr.mem_insertEntry hkv with rfl | hkv
    · exact ihe
    · exact hm kv hkv

end Grammar

end EL
