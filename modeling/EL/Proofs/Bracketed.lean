import EL.Proofs.Entries
import EL.Proofs.Parentheses

/-!
# Expressions between brackets

An expression can be written in every place that brackets, commas and braces set off, and it is the
same expression there: **what is put together from texts is read as what their trees make up**
(`parseStrict_brackets`). The end of its line sets it off from what follows, since a comment may stand
there or a number. In parentheses it is an operand as well.
-/

set_option autoImplicit false

namespace EL

open EL.Parser (Shape)
open Text (joinWith)

/-- Texts as the items of a list, each with the end of its line. -/
def itemsText (texts : List String) : String := joinWith "\n, " texts ++ "\n"

namespace Grammar

section
variable {us : List Token} {e : Expr} {b : Nat} {k : Kind}

/-! ## Operands and indices -/

theorem derives_name (name : String) (hk : k ≠ .openBracket) (b : Nat) :
    Derives .longest none b (.operand (.var name .origin)) [.ofName name] k :=
  have hatom : Token.atom? (.ofName name) = some (.var name .origin) := rfl
  .subscripted (admits_none _) (.atom hatom) .subscriptsEnd hk

/-- In parentheses an expression is an operand, before a token that goes on with neither. -/
theorem derives_parentheses (h : Derives .longest none 0 (.expression e) us .endOfInput)
    (hk : Follows k) (b : Nat) :
    Derives .longest none b (.operand (.unary .group e .origin))
      (.symbol .openParen :: (us ++ [.symbol .closeParen])) k := by
  have hterm := (h.within (k := .closeParen) ⟨rfl, by decide⟩ (b + 1)).term_of_expression
    ⟨rfl, by decide⟩
  have hparens := Derives.parens (o := .symbol .openParen) (c := .symbol .closeParen) rfl rfl hterm
    .tailEnd hk.1
  have hoperand := Derives.subscripted (admits_none _) hparens .subscriptsEnd hk.2
  rwa [List.append_nil] at hoperand

/-- A sign in front of parentheses. -/
theorem derives_sign {u : UnaryOp} {o : Kind} (hu : UnaryOp.ofKind? o = some u)
    (h : Derives .longest none 0 (.expression e) us .endOfInput) :
    Derives .longest none 0 (.expression (.unary u (.unary .group e .origin) .origin))
      (.symbol o :: .symbol .openParen :: (us ++ [.symbol .closeParen])) .endOfInput := by
  have hgroup := derives_parentheses h (k := .endOfInput) ⟨rfl, by decide⟩ 1
  refine .expression_of_simple (.sign (t := .symbol o) hu hgroup) (by decide) ?_
  rintro rfl
  cases hu

/-- A binary operator between a name and parentheses. -/
theorem derives_binary {op : BinaryOp} (hop : BinaryOp.ofKind? op.kind = some op) (name : String)
    (h : Derives .longest none 0 (.expression e) us .endOfInput) :
    Derives .longest none 0 (.expression
        (.binary op (.var name .origin) (.unary .group e .origin) .origin))
      (.ofName name :: .symbol op.kind :: .symbol .openParen :: (us ++ [.symbol .closeParen]))
      .endOfInput := by
  have hright := derives_parentheses h (k := .endOfInput) ⟨rfl, by decide⟩ 0
  have htail := Derives.tailMore (t := .symbol op.kind) (e := .var name .origin) hop hright .tailEnd
  have hterm := Derives.chain (derives_name name (ne_openBracket_of_ofKind? hop) 0) htail
  rw [List.append_nil] at hterm
  exact .ungrouped nofun hterm

/-- Expressions with commas between them are a list of any kind that brackets set off. -/
theorem derives_listing {s : Shape} (hs : s.closer = .closeBracket) {uss : List (List Token)}
    {es : List Expr}
    (h : List.Forall₂ (fun us e => Derives .longest none 0 (.expression e) us .endOfInput) uss es) :
    Derives .longest none 0 (.listing s es) (Token.join uss ++ [.symbol .closeBracket])
      .endOfInput := by
  by_cases hne : uss = []
  · subst hne
    cases h
    exact .noItems hs.symm
  · have hitems := derives_items s h hne 0 .endOfInput
    rw [hs] at hitems
    refine .someItems ?_ hitems
    rintro rfl
    cases hs

/-- A bound and dots are an index, in either order. -/
theorem derives_halfOpen (x : Expr) (h : Derives .longest none 0 (.expression e) us .endOfInput) :
    Derives .longest none 0 (.listing (.index x) [.unary .rightBoundedRange e .origin])
      (.symbol .range :: (us ++ [.symbol .closeBracket])) .endOfInput ∧
    Derives .longest none 0 (.listing (.index x) [.unary .leftBoundedRange e .origin])
      (us ++ .symbol .range :: [.symbol .closeBracket]) .endOfInput := by
  have hupper := Derives.rightBounded (x := x) (t := .symbol .range) rfl
    (h.within (follows_closer (.index x)) 1)
  have hlower := Derives.leftBounded (k := .closeBracket) (x := x) (t := .symbol .range)
    (h.within (k := .range) ⟨rfl, by decide⟩ 1) rfl
  have hlast := Derives.lastItem (c := .symbol .closeBracket) (k := .endOfInput) hlower rfl
  rw [List.append_assoc] at hlast
  exact ⟨.someItems nofun (.lastItem (c := .symbol .closeBracket) hupper rfl),
    .someItems nofun hlast⟩

end

end Grammar

/-! ## Texts -/

section
variable {name text : String} {e : Expr} {us : List Token} {texts : List String} {es : List Expr}

/-- **A sign can stand in front of what is in parentheses.** -/
theorem readsAs_sign {u : UnaryOp} (hu : u.IsSign) (h : parseStrict text = .ok e) :
    ReadsAs (Expr.unarySource u (parenthesesText text))
      (.unary u (.unary .group e .origin) .origin) := by
  obtain ⟨us, hscans, hd⟩ := parse_strict_iff_derives.mp h
  have hgroup := shows_parenthesesText hscans
  rw [toList_parenthesesText] at hgroup
  obtain ⟨o, ho, hshows⟩ : ∃ o, UnaryOp.ofKind? o = some u ∧
      Shows (Expr.unarySource u (parenthesesText text)).toList
        (.symbol o :: .symbol .openParen :: (us ++ [.symbol .closeParen])) := by
    -- No sign makes up another symbol with a parenthesis.
    rcases UnaryOp.isSign_iff.mp hu with rfl | rfl | rfl | rfl
    · refine ⟨.plus, rfl, ?_⟩
      simpa [Expr.unarySource] using shows_symbol (s := ['+']) rfl rfl rfl hgroup
    · refine ⟨.minus, rfl, ?_⟩
      simpa [Expr.unarySource] using shows_symbol (s := ['-']) rfl rfl rfl hgroup
    · refine ⟨.exclamation, rfl, ?_⟩
      simpa [Expr.unarySource] using shows_symbol (s := ['!']) rfl rfl rfl hgroup
    · refine ⟨.tilde, rfl, ?_⟩
      simpa [Expr.unarySource] using shows_symbol (s := ['~']) rfl rfl rfl hgroup
  exact exists_parse_of_shows hshows (Grammar.derives_sign ho hd)

theorem shows_operator (op : BinaryOp) {cs : List Char} {ts : List Token} (h : Shows cs ts) :
    Shows (op.symbol.toList ++ ' ' :: cs) (.symbol op.kind :: ts) := by
  rw [BinaryOp.symbol, String.toList_ofList]
  cases op <;> exact shows_symbol rfl rfl rfl (shows_blank rfl h)

/-- **An operator can stand between a name and what is in parentheses.** -/
theorem readsAs_binary {op : BinaryOp} (hop : op ∈ BinaryOp.chaining)
    (hname : Lexeme.IsName name.toList) (h : parseStrict text = .ok e) :
    ReadsAs (Expr.binarySource op name (parenthesesText text))
      (.binary op (.var name .origin) (.unary .group e .origin) .origin) := by
  have hne : op ≠ .boundedRange := by
    rintro rfl
    exact absurd hop (by decide)
  obtain ⟨us, hscans, hd⟩ := parse_strict_iff_derives.mp h
  have hright := shows_operator op (shows_parenthesesText hscans)
  have hends : EndsName (' ' :: (op.symbol.toList ++ ' ' :: (parenthesesText text).toList)) := rfl
  have hshows := shows_name hname hends (shows_blank rfl hright)
  refine exists_parse_of_shows ?_ (Grammar.derives_binary (BinaryOp.ofKind?_kind hne) name hd)
  simpa [Expr.binarySource_of_ne hne] using hshows

/-- **A bound can stand alone in a subscript**, on either side of the dots. -/
theorem readsAs_halfOpen (hname : Lexeme.IsName name.toList) (h : parseStrict text = .ok e) :
    ReadsAs (name ++ "[" ++ (".." ++ text ++ "\n") ++ "]")
      (.subscript (.var name .origin) (.unary .rightBoundedRange e .origin) .origin) ∧
    ReadsAs (name ++ "[" ++ (text ++ "\n..") ++ "]")
      (.subscript (.var name .origin) (.unary .leftBoundedRange e .origin) .origin) := by
  obtain ⟨us, hscans, hd⟩ := parse_strict_iff_derives.mp h
  have hupper : Shows ("[" ++ (".." ++ text ++ "\n") ++ "]").toList
      (.symbol .openBracket :: .symbol .range :: (us ++ [.symbol .closeBracket])) :=
    shows_brackets (by simpa using shows_range (shows_line hscans shows_closeBracket))
  have hlower : Shows ("[" ++ (text ++ "\n..") ++ "]").toList
      (.symbol .openBracket :: (us ++ .symbol .range :: [.symbol .closeBracket])) :=
    shows_brackets (by simpa using shows_line hscans (shows_range shows_closeBracket))
  obtain ⟨hderives, hderives'⟩ := Grammar.derives_halfOpen (.var name .origin) hd
  exact ⟨readsAs_subscript hname hupper rfl hderives, readsAs_subscript hname hlower rfl hderives'⟩

theorem shows_itemsText {uss : List (List Token)}
    (h : List.Forall₂ (fun text us => (Cursor.ofText text).Scans us) texts uss) :
    Shows ("[" ++ itemsText texts ++ "]").toList
      (.symbol .openBracket :: (Token.join uss ++ [.symbol .closeBracket])) := by
  have hitems := shows_join (h.imp fun _ _ => shows_line) shows_closeBracket
  exact shows_brackets (by simpa [itemsText] using hitems)

/-- **Expressions with commas between them are the elements of an array**, and the indices of a
    subscript. -/
theorem readsAs_itemsText (hname : Lexeme.IsName name.toList)
    (h : List.Forall₂ (fun text e => parseStrict text = .ok e) texts es) :
    ReadsAs ("[" ++ itemsText texts ++ "]") (.array es .origin) ∧
    ReadsAs (name ++ "[" ++ itemsText texts ++ "]")
      (.subscript (.var name .origin) (.collect es .origin) .origin) := by
  obtain ⟨uss, htexts, htrees⟩ := exists_derives_of_parses h
  have hshows := shows_itemsText htexts
  have harray := Grammar.Derives.array (o := .symbol .openBracket) rfl
    (Grammar.derives_listing (s := .array) rfl htrees)
  refine ⟨exists_parse_of_shows hshows ?_, readsAs_subscript hname hshows rfl ?_⟩
  · exact .expression_of_simple harray nofun (show Kind.openBracket ≠ _ by decide)
  · exact Grammar.derives_listing rfl htrees

end

/-- **What is put together from texts is read as what their trees make up.** An expression can be put
    in parentheses, it can be the only bound of a range in a subscript, and in parentheses it can
    stand behind a sign, or behind a name and a binary operator. Expressions can be the elements of
    an array and the indices of a subscript, where a single one makes no array. With keys that differ
    they are the entries of a map, in whatever order they are written. -/
theorem parseStrict_brackets {name : String} (hname : Lexeme.IsName name.toList) :
    (∀ text e, parseStrict text = .ok e →
      ReadsAs (parenthesesText text) (.unary .group e .origin) ∧
      ReadsAs (name ++ "[" ++ (".." ++ text ++ "\n") ++ "]")
        (.subscript (.var name .origin) (.unary .rightBoundedRange e .origin) .origin) ∧
      ReadsAs (name ++ "[" ++ (text ++ "\n..") ++ "]")
        (.subscript (.var name .origin) (.unary .leftBoundedRange e .origin) .origin) ∧
      (∀ u : UnaryOp, u.IsSign → ReadsAs (Expr.unarySource u (parenthesesText text))
        (.unary u (.unary .group e .origin) .origin)) ∧
      ∀ op ∈ BinaryOp.chaining, ReadsAs (Expr.binarySource op name (parenthesesText text))
        (.binary op (.var name .origin) (.unary .group e .origin) .origin)) ∧
    (∀ texts es, List.Forall₂ (fun text e => parseStrict text = .ok e) texts es →
      ReadsAs ("[" ++ itemsText texts ++ "]") (.array es .origin) ∧
      ReadsAs (name ++ "[" ++ itemsText texts ++ "]")
        (.subscript (.var name .origin) (.collect es .origin) .origin)) ∧
    ∀ entries kvs, List.Forall₂ ReadsEntry entries kvs → (kvs.map (·.1)).Nodup →
      (Expr.entriesOfList kvs).Perm kvs ∧
      ReadsAs (mapText entries) (.map (Expr.entriesOfList kvs) .origin) := by
  refine ⟨fun text e h => ?_, fun texts es h => readsAs_itemsText hname h, ?_⟩
  · obtain ⟨hupper, hlower⟩ := readsAs_halfOpen hname h
    exact ⟨readsAs_parentheses h, hupper, hlower, fun u hu => readsAs_sign hu h,
      fun op hop => readsAs_binary hop hname h⟩
  · intro entries kvs h hkeys
    exact ⟨Expr.perm_insertEntries (m := []) hkeys, readsAs_mapText h⟩

/-- A comment behind an expression ends with its line, before a parenthesis, a comma or a brace. -/
theorem parseStrict_brackets_comment :
    ReadsAs (Expr.unarySource .minus (parenthesesText "a // c"))
      (.unary .minus (.unary .group (.var "a" ⟨1, 1⟩) .origin) .origin) ∧
    ReadsAs ("x" ++ "[" ++ itemsText ["a // c", "\x7b\x7b\x7d\x7d"] ++ "]")
      (.subscript (.var "x" .origin) (.array [.var "a" ⟨1, 1⟩, .switch [] ⟨1, 1⟩] .origin) .origin) ∧
    ReadsAs (mapText [("k", "a // c"), ("\"b\"", "\x7b\x7b\x7d\x7d")])
      (.map [("b", .switch [] ⟨1, 1⟩), ("k", .var "a" ⟨1, 1⟩)] .origin) := by
  have hname : Lexeme.IsName "x".toList := ⟨'x', [], rfl, rfl, List.forall_mem_nil _, rfl⟩
  have ha : parseStrict "a // c" = .ok (.var "a" ⟨1, 1⟩) :=
    parseStrict_eq_ok_iff.mpr ⟨_, Cursor.tokens_of_scanWithin 2 rfl, rfl⟩
  have hswitch : parseStrict "\x7b\x7b\x7d\x7d" = .ok (.switch [] ⟨1, 1⟩) :=
    parseStrict_eq_ok_iff.mpr ⟨_, Cursor.tokens_of_scanWithin 3 rfl, rfl⟩
  have hk : IsKey "k" "k" := ⟨_, _, rfl, rfl, rfl⟩
  have hb : IsKey "\"b\"" "b" := ⟨_, _, rfl, rfl, rfl⟩
  have hread : List.Forall₂ ReadsEntry [("k", "a // c"), ("\"b\"", "\x7b\x7b\x7d\x7d")]
      [("k", .var "a" ⟨1, 1⟩), ("b", .switch [] ⟨1, 1⟩)] :=
    .cons ⟨hk, ha⟩ (.cons ⟨hb, hswitch⟩ .nil)
  obtain ⟨hsingle, hitems, hentries⟩ := parseStrict_brackets hname
  obtain ⟨-, -, -, hsigns, -⟩ := hsingle _ _ ha
  obtain ⟨-, hindices⟩ := hitems _ _ (.cons ha (.cons hswitch .nil))
  obtain ⟨-, hmap⟩ := hentries _ _ hread (by simp)
  exact ⟨hsigns .minus ⟨.minus, rfl⟩, hindices, hmap⟩

end EL
