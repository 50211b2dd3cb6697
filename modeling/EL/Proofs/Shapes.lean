import EL.Proofs.Lenient

/-!
# Where the nodes of a parsed tree stand

A host walks over trees, and it relies on what a tree cannot look like. **Ranges are nowhere but in
the brackets they are written in** (`wellShaped_of_parse`): they are elements of arrays and indices of
subscripts, and those with one bound are indices only, by themselves or collected with others. No
other node has to deal with one.

The collected indices are an array like one that was written, so what an element may be depends on
where its array stands. `Expr.placesFrom` lists the nodes of a tree with their places.
-/

set_option autoImplicit false

namespace EL

/-- Where a node stands: what it is to the node above it. -/
inductive Place where
  | root
  /-- An operand, on either side of an operator. -/
  | operand
  /-- One of the elements of an array, which may be the index of a subscript. -/
  | element (count : Nat) (ofIndex : Bool)
  /-- A value of a map. -/
  | value
  | branch
  /-- What a subscript is applied to. -/
  | target
  | index
deriving DecidableEq

namespace Expr

mutual

/-- A node that stands at `p` and all nodes below it, with their places. -/
def placesFrom (p : Place) : Expr → List (Place × Expr)
  | literal v l => [(p, literal v l)]
  | var x l => [(p, var x l)]
  | unary op e l => (p, unary op e l) :: e.placesFrom .operand
  | binary op a b l => (p, binary op a b l) :: (a.placesFrom .operand ++ b.placesFrom .operand)
  | array es l => (p, array es l) :: listPlacesFrom (.element es.length (p = .index)) es
  | map m l => (p, map m l) :: entryPlacesFrom m
  | switch es l => (p, switch es l) :: listPlacesFrom .branch es
  | subscript a i l => (p, subscript a i l) :: (a.placesFrom .target ++ i.placesFrom .index)

/-- The nodes of the trees in a list, each of which stands at `p`. -/
def listPlacesFrom (p : Place) : List Expr → List (Place × Expr)
  | [] => []
  | e :: es => e.placesFrom p ++ listPlacesFrom p es

/-- The nodes of the values of a map. -/
def entryPlacesFrom : List (String × Expr) → List (Place × Expr)
  | [] => []
  | (_, e) :: m => e.placesFrom .value ++ entryPlacesFrom m

end

/-- All nodes of a tree with their places. -/
def places (e : Expr) : List (Place × Expr) := e.placesFrom .root

mutual

/-- Places aside, these are the nodes of the tree. -/
theorem map_placesFrom (p : Place) : ∀ e : Expr, (e.placesFrom p).map (·.2) = e.nodes.map (·.2)
  | literal _ _ | var _ _ => rfl
  | unary _ e _ => by
    rw [map_nodes, placesFrom, List.map_cons, map_placesFrom .operand e]
    simp [children]
  | binary _ a b _ => by
    rw [map_nodes, placesFrom, List.map_cons, List.map_append, map_placesFrom .operand a,
      map_placesFrom .operand b]
    simp [children]
  | array es _ => by
    rw [map_nodes, placesFrom, List.map_cons, map_listPlacesFrom _ es, children]
  | switch es _ => by
    rw [map_nodes, placesFrom, List.map_cons, map_listPlacesFrom .branch es, children]
  | map m _ => by
    rw [map_nodes, placesFrom, List.map_cons, map_entryPlacesFrom m, children, List.flatMap_map]
  | subscript a i _ => by
    rw [map_nodes, placesFrom, List.map_cons, List.map_append, map_placesFrom .target a,
      map_placesFrom .index i]
    simp [children]

theorem map_listPlacesFrom (p : Place) : ∀ es : List Expr,
    (listPlacesFrom p es).map (·.2) = es.flatMap fun e => e.nodes.map (·.2)
  | [] => rfl
  | e :: es => by
    rw [listPlacesFrom, List.map_append, map_placesFrom p e, map_listPlacesFrom p es,
      List.flatMap_cons]

theorem map_entryPlacesFrom : ∀ m : List (String × Expr),
    (entryPlacesFrom m).map (·.2) = m.flatMap fun kv => kv.2.nodes.map (·.2)
  | [] => rfl
  | (_, e) :: m => by
    rw [entryPlacesFrom, List.map_append, map_placesFrom .value e, map_entryPlacesFrom m,
      List.flatMap_cons]

end

/-- What holds of every node holds of every node at its place. -/
theorem All.of_mem_places {P : Expr → Prop} {e : Expr} (h : e.All P) :
    ∀ x ∈ e.places, P x.2 := by
  have hnodes : ∀ n ∈ e.places.map (·.2), P n := by
    rw [places, map_placesFrom, List.forall_mem_map]
    exact h
  exact List.forall_mem_map.mp hnodes

/-! ## What a tree begins with -/

/-- A range with one bound. -/
def IsHalfOpen : Expr → Prop
  | unary .leftBoundedRange _ _ | unary .rightBoundedRange _ _ => True
  | _ => False

def IsSwitch : Expr → Prop
  | switch _ _ => True
  | _ => False

/-- The node that a tree begins with: of operators their left operand, of a subscript its target. -/
def leftmost : Expr → Expr
  | binary _ a _ _ => a.leftmost
  | subscript a _ _ => a.leftmost
  | e => e

/-- A tree that begins with a switch is printed with the braces first. -/
theorem ahead_tokens_of_leftmost : ∀ {e : Expr}, e.leftmost.IsSwitch → ∀ k,
    Grammar.ahead e.tokens k = .openSwitch
  | binary _ a _ _, h, k => by
    rw [tokens, Grammar.ahead_append]
    exact ahead_tokens_of_leftmost (e := a) h _
  | subscript a i _, h, k => by
    rw [tokens_subscript, Grammar.ahead_append]
    exact ahead_tokens_of_leftmost (e := a) h _
  | switch _ _, _, _ => rfl

end Expr

namespace Grammar

/-! ## What the rules allow -/

/-- What a node may be at a place, its value or name aside. -/
structure Fits (p : Place) (n : Expr) : Prop where
  range : n.IsRange → p = .index ∨ ∃ count ofIndex, p = .element count ofIndex
  halfOpen : n.IsHalfOpen → p = .index ∨ ∃ count, 2 ≤ count ∧ p = .element count true
  first : ∀ e es loc, n = .switch (e :: es) loc → ¬ e.leftmost.IsSwitch

/-- A node that is neither a range nor a switch may stand anywhere. -/
theorem Fits.plain {p : Place} {n : Expr} (hrange : ¬ n.IsRange) (hhalf : ¬ n.IsHalfOpen)
    (hswitch : ¬ n.IsSwitch) : Fits p n where
  range h := absurd h hrange
  halfOpen h := absurd h hhalf
  first e es loc h := by
    subst h
    exact absurd trivial hswitch

/-- Is every node of a tree that stands at `p` what it may be? -/
def AllFit (p : Place) (e : Expr) : Prop := ∀ x ∈ e.placesFrom p, Fits x.1 x.2

def FitsAnywhere (e : Expr) : Prop := ∀ p, AllFit p e

section
variable {p : Place} {loc : Location}

theorem allFit_literal {v : Literal} : AllFit p (.literal v loc) :=
  List.forall_mem_singleton.mpr (.plain id id id)

theorem allFit_var {x : String} : AllFit p (.var x loc) :=
  List.forall_mem_singleton.mpr (.plain id id id)

theorem allFit_unary {op : UnaryOp} {e : Expr} :
    AllFit p (.unary op e loc) ↔ Fits p (.unary op e loc) ∧ AllFit .operand e :=
  List.forall_mem_cons

theorem allFit_binary {op : BinaryOp} {a b : Expr} :
    AllFit p (.binary op a b loc) ↔
      Fits p (.binary op a b loc) ∧ AllFit .operand a ∧ AllFit .operand b :=
  List.forall_mem_cons.trans (and_congr_right fun _ => List.forall_mem_append)

theorem allFit_subscript {a i : Expr} (ha : FitsAnywhere a) (hi : AllFit .index i) :
    AllFit p (.subscript a i loc) :=
  List.forall_mem_cons.mpr
    ⟨.plain id id id, List.forall_mem_append.mpr ⟨ha .target, hi⟩⟩

theorem allFit_list {es : List Expr} (h : ∀ e ∈ es, AllFit p e) :
    ∀ x ∈ Expr.listPlacesFrom p es, Fits x.1 x.2 := by
  induction es with
  | nil => exact fun _ hx => nomatch hx
  | cons e es ih =>
    obtain ⟨he, hes⟩ := List.forall_mem_cons.mp h
    exact List.forall_mem_append.mpr ⟨he, ih hes⟩

theorem allFit_array {es : List Expr}
    (h : ∀ e ∈ es, AllFit (.element es.length (p = .index)) e) : AllFit p (.array es loc) :=
  List.forall_mem_cons.mpr ⟨.plain id id id, allFit_list h⟩

theorem allFit_switch {es : List Expr} (h : ∀ e ∈ es, FitsAnywhere e)
    (hfirst : ∀ e es', es = e :: es' → ¬ e.leftmost.IsSwitch) : AllFit p (.switch es loc) := by
  refine List.forall_mem_cons.mpr ⟨⟨False.elim, False.elim, ?_⟩, allFit_list fun e he => h e he _⟩
  rintro e es' loc' heq
  cases heq
  exact hfirst e es' rfl

theorem allFit_map {m : List (String × Expr)} (h : ∀ kv ∈ m, FitsAnywhere kv.2) :
    AllFit p (.map m loc) := by
  refine List.forall_mem_cons.mpr ⟨.plain id id id, ?_⟩
  induction m with
  | nil => exact fun _ hx => nomatch hx
  | cons kv m ih =>
    obtain ⟨hv, hm⟩ := List.forall_mem_cons.mp h
    exact List.forall_mem_append.mpr ⟨hv .value, ih hm⟩

theorem fitsAnywhere_sign {k : Kind} {op : UnaryOp} {e : Expr} (hop : UnaryOp.ofKind? k = some op)
    (he : FitsAnywhere e) : FitsAnywhere (.unary op e loc) := by
  intro p
  refine allFit_unary.mpr ⟨.plain id (fun h => ?_) id, he .operand⟩
  unfold UnaryOp.ofKind? at hop
  split at hop <;> cases hop <;> cases h

theorem fitsAnywhere_group {e : Expr} (he : FitsAnywhere e) :
    FitsAnywhere (.unary .group e loc) :=
  fun _ => allFit_unary.mpr ⟨.plain id id id, he .operand⟩

theorem fitsAnywhere_chain {k : Kind} {op : BinaryOp} {a b : Expr}
    (hop : BinaryOp.ofKind? k = some op) (ha : FitsAnywhere a) (hb : FitsAnywhere b) :
    FitsAnywhere (.binary op a b loc) := by
  intro p
  -- The dots are no operator of a chain.
  have hne := BinaryOp.ne_boundedRange_of_ofKind? hop
  have hrange : ¬ (Expr.binary op a b loc).IsRange := Expr.IsChain.not_range hne
  exact allFit_binary.mpr ⟨.plain hrange id id, ha .operand, hb .operand⟩

end

end Grammar

/-- Which trees are items of such a list? Indices are items by themselves or one of several. -/
def Parser.Shape.Takes (s : Parser.Shape) (e : Expr) : Prop :=
  match s with
  | .array => ∀ count ofIndex, Grammar.AllFit (.element count ofIndex) e
  | .index _ =>
    Grammar.AllFit .index e ∧ ∀ count, 2 ≤ count → Grammar.AllFit (.element count true) e
  | .switch => Grammar.FitsAnywhere e

namespace Grammar

theorem takes_of_fitsAnywhere {s : Parser.Shape} {e : Expr} (h : FitsAnywhere e) : s.Takes e := by
  cases s with
  | array => exact fun _ _ => h _
  | index => exact ⟨h _, fun _ _ => h _⟩
  | switch => exact h

/-- **Indices fit where they are collected**: a single one is the index, and others are among the
    elements of one. -/
theorem allFit_collect {x : Expr} {es : List Expr} {loc : Location}
    (h : ∀ e ∈ es, (Parser.Shape.index x).Takes e) : AllFit .index (.collect es loc) := by
  match es, h with
  | [], _ => exact allFit_array fun _ he => nomatch he
  | [e], h => exact (h e (List.mem_singleton_self e)).1
  | e :: e' :: es, h =>
    have hlen : 2 ≤ (e :: e' :: es).length := Nat.le_add_left 2 es.length
    exact allFit_array fun d hd => (h d hd).2 _ hlen

/-- What the trees of a phrase fit, if those that it continues do. -/
def Phrase.Fit : Phrase → Prop
  | .expression e | .term e | .operand e | .simple e => FitsAnywhere e
  | .tail e e' | .subscripts e e' => FitsAnywhere e → FitsAnywhere e'
  | .listing s es =>
    (∀ e ∈ es, s.Takes e) ∧ (s = .switch → ∀ e es', es = e :: es' → ¬ e.leftmost.IsSwitch)
  | .items s es => ∀ e ∈ es, s.Takes e
  | .item s e => s.Takes e
  | .entries m m' => (∀ kv ∈ m, FitsAnywhere kv.2) → ∀ kv ∈ m', FitsAnywhere kv.2

theorem ahead_join_of_leftmost {e : Expr} {es : List Expr} (h : e.leftmost.IsSwitch) (k : Kind) :
    ahead (Token.join (Expr.listTokens (e :: es))) k = .openSwitch := by
  cases es with
  | nil => exact Expr.ahead_tokens_of_leftmost h k
  | cons e' es =>
    rw [Expr.listTokens, join_cons (listTokens_ne_nil (List.cons_ne_nil e' es)), ahead_append]
    exact Expr.ahead_tokens_of_leftmost h _

theorem fit_insertEntry {key : String} {e : Expr} {m : List (String × Expr)} (he : FitsAnywhere e)
    (hm : ∀ kv ∈ m, FitsAnywhere kv.2) : ∀ kv ∈ Expr.insertEntry key e m, FitsAnywhere kv.2 := by
  intro kv hkv
  rcases Expr.mem_insertEntry hkv with rfl | hkv
  · exact he
  · exact hm kv hkv

/-- **The rules put every node where it may stand.** -/
theorem Derives.fit {π : Policy} {limit : Option Nat} {b : Nat} {p : Phrase} {ts : List Token}
    {k : Kind} (h : Derives π limit b p ts k) : p.Fit := by
  induction h with
  | grouped _ _ _ _ iht ihu | parens _ _ _ _ _ iht ihu => exact ihu (fitsAnywhere_group iht)
  | ungrouped _ _ ih => exact ih
  | chain _ _ iho ihu => exact ihu iho
  | tailEnd | subscriptsEnd => exact id
  | tailMore ht _ _ ihr ihu => exact fun he => ihu (fitsAnywhere_chain ht he ihr)
  | subscripted _ _ _ _ ihs ihu => exact ihu ihs
  | switch _ _ _ ih => exact fun _ => allFit_switch ih.1 (ih.2 rfl)
  | atom ht =>
    rcases Token.eq_of_atom? ht with ⟨v, loc, rfl⟩ | ⟨x, loc, rfl⟩
    · exact fun _ => allFit_literal
    · exact fun _ => allFit_var
  | sign ht _ ih => exact fitsAnywhere_sign ht ih
  | array _ _ ih => exact fun _ => allFit_array fun e he => ih.1 e he _ _
  | emptyMap => exact fun _ => allFit_map fun _ hkv => nomatch hkv
  | map _ _ ih => exact fun _ => allFit_map (ih fun _ hkv => nomatch hkv)
  | subscriptsMore _ _ _ ihs ihu =>
    exact fun he => ihu fun _ => allFit_subscript he (allFit_collect ihs.1)
  | noItems => exact ⟨fun _ he => (nomatch he), fun _ _ _ heq => nomatch heq⟩
  | someItems hs hi ih =>
    refine ⟨ih, ?_⟩
    rintro rfl e es rfl hswitch
    -- The first token of the list is kept in print, and it does not open a switch.
    have hahead := hs rfl
    rw [← hi.outline.2 .endOfInput, ahead_join_of_leftmost hswitch] at hahead
    exact absurd hahead (by decide)
  | lastItem _ _ ih => exact List.forall_mem_singleton.mpr ih
  | moreItems _ _ _ ihi ihs => exact List.forall_mem_cons.mpr ⟨ihi, ihs⟩
  | bare _ ih => exact takes_of_fitsAnywhere ih
  | bounded _ _ _ ihl ihh =>
    intro count ofIndex
    refine allFit_binary.mpr ⟨⟨fun _ => .inr ⟨_, _, rfl⟩, False.elim, nofun⟩, ihl _, ihh _⟩
  | boundedIndex _ _ _ _ ihl ihh =>
    constructor
    · exact allFit_binary.mpr ⟨⟨fun _ => .inl rfl, False.elim, nofun⟩, ihl _, ihh _⟩
    · intro count _
      exact allFit_binary.mpr ⟨⟨fun _ => .inr ⟨_, _, rfl⟩, False.elim, nofun⟩, ihl _, ihh _⟩
  | leftBounded _ _ ih | rightBounded _ _ ih =>
    -- Such a range is an index by itself, or one of several.
    constructor
    · exact allFit_unary.mpr ⟨⟨False.elim, fun _ => .inl rfl, nofun⟩, ih _⟩
    · intro count hcount
      exact allFit_unary.mpr ⟨⟨False.elim, fun _ => .inr ⟨_, hcount, rfl⟩, nofun⟩, ih _⟩
  | lastEntry _ _ _ _ ih => exact fit_insertEntry ih
  | moreEntries _ _ _ _ _ ih ihm => exact fun hm => ihm (fit_insertEntry ih hm)

end Grammar

/-! ## Parsed trees -/

/-- What a node of a parsed tree may be at a place. -/
structure WellShaped (p : Place) (n : Expr) : Prop extends Grammar.Fits p n where
  /-- A sign is a node of its own. -/
  number : ∀ v loc, n = .literal (.number v) loc → ∃ m, v = .finite false m
  name : ∀ x loc, n = .var x loc → ∃ c r, x.toList = c :: r ∧ (c.isAlpha ∨ c = '_') ∧
    (∀ d ∈ r, d.isAlphanum ∨ d = '_') ∧
    ∀ keyword ∈ ["true", "false", "null"], ¬ keyword.toList <+: x.toList

theorem Lexeme.not_keyword_of_isName {cs : List Char} (h : IsName cs) :
    ∀ keyword ∈ ["true", "false", "null"], ¬ keyword.toList <+: cs := by
  obtain ⟨-, -, -, -, -, hnone⟩ := h
  have hspelled : ∀ keyword ∈ ["true", "false", "null"],
      ∃ s ∈ Kind.keywords, s.2 = keyword.toList := by decide
  intro keyword hkeyword
  obtain ⟨s, hs, hspelling⟩ := hspelled keyword hkeyword
  rw [← hspelling]
  exact keyword?_eq_none.mp hnone s hs

theorem WellShaped.of_printable {p : Place} {n : Expr} (hfit : Grammar.Fits p n)
    (hprint : n.Printable) : WellShaped p n := by
  refine { hfit with number := ?_, name := ?_ }
  · rintro v loc rfl
    exact hprint
  · rintro x loc rfl
    have hname : Lexeme.IsName x.toList := hprint
    obtain ⟨c, r, hx, hc, hr, -⟩ := id hname
    refine ⟨c, r, hx, ?_, ?_, Lexeme.not_keyword_of_isName hname⟩
    · simpa [Lexeme.beginsName] using hc
    · simpa [Lexeme.continuesName] using hr

/-- **The shape of parsed trees**, in any mode. A range is in the brackets it was written in: never
    the root, an operand, a value or a branch. -/
theorem wellShaped_of_parse {c : Cursor} {o : ParseOptions} {e : Expr}
    (h : (c.parse o).1 = .ok e) : ∀ x ∈ e.places, WellShaped x.1 x.2 := by
  obtain ⟨c', ts, hscans, hd⟩ := exists_derives_of_parse (Prod.ext h rfl)
  have hprintable := hd.printable (Cursor.isName_of_scans hscans)
  intro x hx
  exact .of_printable (hd.fit .root x hx) (hprintable.of_mem_places x hx)

theorem wellShaped_collected : ∃ e, parseStrict "x[..a, b]" = .ok e ∧
    (.element 2 true, .unary .rightBoundedRange (.var "a" ⟨1, 5⟩) ⟨1, 3⟩) ∈ e.places ∧
    ∀ x ∈ e.places, WellShaped x.1 x.2 := by
  have h : parseStrict "x[..a, b]" = .ok (.subscript (.var "x" ⟨1, 1⟩) (.array
      [.unary .rightBoundedRange (.var "a" ⟨1, 5⟩) ⟨1, 3⟩, .var "b" ⟨1, 8⟩] ⟨1, 2⟩) ⟨1, 2⟩) :=
    parseStrict_eq_ok_iff.mpr ⟨_, Cursor.tokens_of_scanWithin 9 rfl, rfl⟩
  refine ⟨_, h, ?_, wellShaped_of_parse h⟩
  simp [Expr.places, Expr.placesFrom, Expr.listPlacesFrom]

end EL
