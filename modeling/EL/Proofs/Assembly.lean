import EL.Proofs.Chains
import EL.Proofs.Composition
import EL.Proofs.Expectations
import EL.Proofs.Reprint

/-!
# Texts put together from expressions

A text that is made of other texts, each with a line feed behind it, and of symbols between them has the
tokens of its parts (`Shows`), and its tree is put together in the grammar, from the derivations of
the parts. So **what a text made of expressions is read as can be shown without reading it**: the
tokens are known part by part, and a derivation for them is a strict parse (`exists_parse_of_shows`).

Places are left aside. A part of a text stands elsewhere than the part by itself, and so its tokens
and its tree do.
-/

set_option autoImplicit false

namespace EL

open EL.Parser (Shape)
open Text (joinWith)

/-- The token of a name. -/
def Token.ofName (x : String) : Token := ⟨.name, x, 0, .origin⟩

/-- Wherever these characters stand, they are scanned to these tokens, places aside. -/
def Shows (cs : List Char) (ts : List Token) : Prop :=
  ∀ p, ∃ us, (⟨cs, p⟩ : Cursor).Scans us ∧ us.map Token.bare = ts.map Token.bare

section
variable {cs r s : List Char} {ts us : List Token} {k : Kind} {p : Position}

/-! ## The tokens of a text -/

theorem shows_nil : Shows [] [] :=
  fun p => ⟨[], ⟨⟨.endOfInput, "", p⟩, Cursor.tokens_of_end rfl rfl, rfl⟩, rfl⟩

theorem shows_blank {c : Char} (hc : Text.isBlank c = true) (h : Shows cs ts) :
    Shows (c :: cs) ts := by
  intro p
  obtain ⟨us, ⟨stop, htokens, hstop⟩, hus⟩ := h (p.advance [c])
  exact ⟨us, ⟨stop, (Cursor.tokens_congr (Cursor.next_blank hc cs p)).trans htokens, hstop⟩, hus⟩

/-- What a text begins with, in front of the tokens of the rest. -/
theorem shows_beginsWith {text g : List Char} {x : Lexeme} (hx : BeginsWith text g x cs)
    (h : Shows cs ts) : Shows text (x.token :: ts) := by
  intro p
  obtain ⟨us, ⟨stop, htokens, hstop⟩, hus⟩ := h (p.advance (g ++ x.spelling))
  have hnext := Cursor.next_of_beginsWith (c := ⟨text, p⟩) hx
  obtain ⟨-, -, _, _, -, hread⟩ := hx
  refine ⟨⟨x.kind, String.ofList x.text, p.advance g⟩ :: us, ⟨stop, ?_, hstop⟩, ?_⟩
  · rw [Cursor.tokens_of_token hnext (Lexeme.kind_ne_endOfInput hread), htokens]
    rfl
  · rw [List.map_cons, List.map_cons, hus]
    rfl

/-- A lexeme in front of a text with which it does not go on. -/
theorem shows_lexeme {c : Char} {x : Lexeme} (hgap : gap (c :: r) = [])
    (hread : Lexeme.read c r = .ok x) (hx : c :: r = x.spelling ++ cs) (h : Shows cs ts) :
    Shows (c :: r) (x.token :: ts) :=
  shows_beginsWith ⟨hx, hgap, c, r, hx.symm, hread⟩ h

/-- A symbol in front of a text with which it does not make up another one. -/
theorem shows_symbol (hk : k.spelling? = some s) (hgap : gap (s ++ r) = [])
    (hsymbol : Lexeme.symbol? (s ++ r) = some ⟨k, s⟩) (h : Shows r ts) :
    Shows (s ++ r) (.symbol k :: ts) := by
  have htoken : Lexeme.token ⟨k, s⟩ = .symbol k := by
    have hne : k ≠ .string := by
      rintro rfl
      cases hk
    simp [Lexeme.token, Lexeme.text, Token.symbol, hne, hk]
  cases s with
  | nil => exact absurd rfl (Lexeme.symbol?_spelling_ne_nil hsymbol)
  | cons c s =>
    have hread : Lexeme.read c (s ++ r) = .ok ⟨k, c :: s⟩ := by
      rw [Lexeme.read, show Lexeme.symbol? (c :: (s ++ r)) = _ from hsymbol]
    rw [← htoken]
    exact shows_lexeme hgap hread rfl h

theorem shows_range (h : Shows cs ts) : Shows ('.' :: '.' :: cs) (.symbol .range :: ts) :=
  shows_symbol (s := ['.', '.']) rfl rfl rfl h

theorem shows_closeBracket : Shows [']'] [.symbol .closeBracket] :=
  shows_symbol (s := [']']) rfl rfl rfl shows_nil

/-- What stands between brackets, the closing one included. -/
theorem shows_brackets {items : String} (h : Shows (items.toList ++ [']']) ts) :
    Shows ("[" ++ items ++ "]").toList (.symbol .openBracket :: ts) := by
  simpa using shows_symbol (s := ['[']) (k := .openBracket) rfl rfl rfl h

/-- A name in front of a text with which it does not go on. -/
theorem shows_name {name : String} (hname : Lexeme.IsName name.toList) (hcs : EndsName cs)
    (h : Shows cs ts) : Shows (name.toList ++ cs) (.ofName name :: ts) := by
  obtain ⟨c, r, hcr, hc, hr, hk⟩ := hname
  rw [hcr] at hk ⊢
  have hread := Lexeme.read_name hc hr hk hcs
  have hgap := Lexeme.gap_of_continuesName (Lexeme.continuesName_of_beginsName hc) (r ++ cs)
  have hshows := shows_lexeme hgap hread rfl h
  have hplain : Kind.name ≠ .string := by decide
  rwa [Lexeme.token, Lexeme.text, if_neg hplain, ← hcr, String.ofList_toList] at hshows

/-- The first token of a text is the one that a look at the text finds. -/
theorem Cursor.Scans.peek {c : Cursor} {t : Token} (h : c.Scans (t :: ts)) : c.peek = .ok t := by
  obtain ⟨stop, htokens, -⟩ := h
  obtain ⟨after, hn, -⟩ := Cursor.next_of_tokens htokens
  rw [Cursor.peek, hn]

/-- A text that is scanned somewhere is scanned to the same tokens wherever it stands. -/
theorem shows_of_scans (h : (⟨cs, p⟩ : Cursor).Scans us) : Shows cs us := by
  intro q
  obtain ⟨stop, htokens, hstop⟩ := h
  obtain ⟨hstream, herror⟩ := Cursor.stream_of_tokens htokens
  obtain ⟨htokens', herror'⟩ := Cursor.stream_eq ⟨cs, p⟩
  obtain ⟨hlater, hlater'⟩ := Cursor.stream_eq ⟨cs, q⟩
  rw [hstream, eq_comm] at htokens'
  rw [herror, eq_comm, Option.map_eq_none_iff] at herror'
  -- Both scans are the one from the beginning, moved.
  obtain ⟨vs, rest, hstart, rfl, hrest⟩ := List.map_eq_append_iff.mp htokens'
  obtain ⟨u, rfl, rfl⟩ := List.map_eq_singleton_iff.mp hrest
  rw [hstart, List.map_append] at hlater
  rw [herror'] at hlater'
  refine ⟨vs.map (Token.behind q), ⟨u.behind q, ?_, hstop⟩, ?_⟩
  · exact Cursor.tokens_eq_ok_iff.mpr ⟨hlater, hlater'⟩
  · rw [List.map_map, List.map_map]
    rfl

/-- A part of the tokens that a text shows is found in it by a scan. -/
theorem exists_scans_of_shows {text : String} (h : Shows text.toList (us ++ ts)) :
    ∃ us' ts', (Cursor.ofText text).Scans (us' ++ ts') ∧ us'.map Token.bare = us.map Token.bare ∧
      ts'.map Token.bare = ts.map Token.bare := by
  obtain ⟨ws, hscans, hws⟩ := h (.start .origin)
  rw [List.map_append] at hws
  obtain ⟨us', ts', rfl, hus, hts⟩ := List.map_eq_append_iff.mp hws
  exact ⟨us', ts', hscans, hus, hts⟩

/-- With the end of its line, the text has these tokens, whatever follows. -/
def ShowsLine (text : String) (us : List Token) : Prop :=
  ∀ ⦃cs ts⦄, Shows cs ts → Shows (text.toList ++ '\n' :: cs) (us ++ ts)

theorem shows_line {text : String} (htext : (Cursor.ofText text).Scans us) : ShowsLine text us := by
  intro cs ts h p
  obtain ⟨ws, ⟨stop, htokens, hstop⟩, hws⟩ := shows_of_scans htext p
  obtain ⟨here, after, hreads, hn⟩ := Cursor.exists_reads_of_tokens htokens
  obtain ⟨hgap, -, -⟩ := Cursor.next_eq_end hn hstop
  obtain ⟨q, hq, hreads', hline⟩ := hreads.line hgap cs
  obtain ⟨vs, ⟨stop', htokens', hstop'⟩, hvs⟩ := h (p.advance (q ++ (here.rest ++ ['\n'])))
  have hrest : text.toList ++ '\n' :: cs = q ++ (here.rest ++ '\n' :: cs) := by
    rw [show text.toList = q ++ here.rest from hq, List.append_assoc]
  refine ⟨ws ++ vs, ⟨stop', ?_, hstop'⟩, ?_⟩
  · obtain ⟨hstream, herror⟩ := Cursor.stream_of_tokens htokens'
    have hlater : (⟨here.rest ++ '\n' :: cs, here.position⟩ : Cursor).tokens =
        .ok (vs ++ [stop']) := by
      rw [Cursor.tokens_eq_ok_iff, hline]
      exact ⟨hstream, herror⟩
    rw [hrest, List.append_assoc]
    exact hreads'.tokens_ok_iff.mpr ⟨_, hlater, rfl⟩
  · rw [List.map_append, List.map_append, hws, hvs]

/-- Several texts, each with the end of its line, and commas between them. -/
theorem shows_join {texts : List String} {uss : List (List Token)}
    (htexts : List.Forall₂ ShowsLine texts uss) (h : Shows cs ts) :
    Shows ((joinWith "\n, " texts).toList ++ '\n' :: cs) (Token.join uss ++ ts) := by
  induction htexts with
  | nil => exact shows_blank rfl h
  | @cons text us texts uss htext htexts ih =>
    cases htexts with
    | nil => exact htext h
    | cons =>
      have hcomma := shows_symbol (s := [',']) (k := .comma) rfl rfl rfl
        (shows_blank (c := ' ') rfl ih)
      simpa [Token.join] using htext hcomma

/-! ## The tree of a text -/

/-- The text is read strictly, and as this tree but for places. -/
def ReadsAs (text : String) (e : Expr) : Prop := ∃ x, parseStrict text = .ok x ∧ x.same e = true

/-- The tokens of texts that are read strictly, and what derives their trees. -/
theorem exists_derives_of_parses {texts : List String} {es : List Expr}
    (h : List.Forall₂ (fun text e => parseStrict text = .ok e) texts es) :
    ∃ uss, List.Forall₂ (fun text us => (Cursor.ofText text).Scans us) texts uss ∧
      List.Forall₂ (fun us e => Grammar.Derives .longest none 0 (.expression e) us .endOfInput)
        uss es := by
  induction h with
  | nil => exact ⟨[], .nil, .nil⟩
  | cons he _ ih =>
    obtain ⟨us, hscans, hd⟩ := parse_strict_iff_derives.mp he
    obtain ⟨uss, htexts, htrees⟩ := ih
    exact ⟨us :: uss, .cons hscans htexts, .cons hd htrees⟩

/-- **A derivation for the tokens that a text shows is a parse of the text**, to a tree that differs
    in places at most. -/
theorem exists_bare_of_shows {text : String} {e : Expr} (h : Shows text.toList ts)
    (hd : Grammar.Derives .longest none 0 (.expression e) ts .endOfInput) :
    ∃ x, parseStrict text = .ok x ∧ x.bare = e.bare := by
  obtain ⟨us, ⟨stop, htokens, hstop⟩, hus⟩ := h (.start .origin)
  have hread := hd.read? hstop
  have hbare : (us ++ [stop]).map Token.bare = (ts ++ [stop]).map Token.bare := by
    rw [List.map_append, List.map_append, hus]
  have hsame := @Parser.read?_bare none .initial _ _ hbare
  rw [hread, Option.map_some] at hsame
  obtain ⟨x, hx, hxe⟩ := Option.map_eq_some_iff.mp hsame
  exact ⟨x, parseStrict_eq_ok_iff.mpr ⟨_, htokens, hx⟩, hxe⟩

theorem exists_parse_of_shows {text : String} {e : Expr} (h : Shows text.toList ts)
    (hd : Grammar.Derives .longest none 0 (.expression e) ts .endOfInput) :
    ReadsAs text e := by
  obtain ⟨x, hx, hxe⟩ := exists_bare_of_shows h hd
  refine ⟨x, hx, ?_⟩
  rw [← Expr.same_congr_bare hxe]
  exact same_of_parse (Prod.ext hx rfl)

/-- A list of indices behind a name. -/
theorem shows_subscript {name items : String} (hname : Lexeme.IsName name.toList)
    (h : Shows ("[" ++ items ++ "]").toList ts) :
    Shows (name ++ "[" ++ items ++ "]").toList (.ofName name :: ts) := by
  have hends : EndsName ("[" ++ items ++ "]").toList := by
    rw [String.append_assoc, String.toList_append]
    rfl
  simpa using shows_name hname hends h

end

namespace Grammar

section
variable {ts : List Token} {e : Expr} {b : Nat} {k : Kind}

/-- What is read strictly can be read in every place where an expression ends. -/
theorem Derives.within (h : Derives .longest none 0 (.expression e) ts .endOfInput)
    (hk : Follows k) (b : Nat) : Derives .longest none b (.expression e) ts k :=
  h.rebase b ⟨fun _ => hk.1, fun _ => hk.2⟩

theorem admits_none (n : Nat) : Admits none n := fun _ h => by cases h

/-- An operand is an expression, if it does not begin with parentheses. -/
theorem Derives.expression_of_operand (h : Derives .longest none b (.operand e) ts k)
    (hts : ahead ts k ≠ .openParen) : Derives .longest none b (.expression e) ts k := by
  have hterm := Derives.chain h .tailEnd
  rw [List.append_nil] at hterm
  exact .ungrouped hts hterm

/-- A simple term with its subscripts is an expression, if it does not begin with parentheses. -/
theorem Derives.expression_of_subscripts {us : List Token} {e' : Expr}
    (hs : Derives .longest none b (.simple e) ts (ahead us k))
    (hu : Derives .longest none b (.subscripts e e') us k) (hk : k ≠ .openBracket)
    (hts : ahead ts k ≠ .openParen) : Derives .longest none b (.expression e') (ts ++ us) k := by
  have hoperand := Derives.subscripted (admits_none _) hs hu hk
  obtain ⟨t, vs, rfl, -⟩ := hs.begins
  exact hoperand.expression_of_operand hts

theorem Derives.expression_of_simple (hs : Derives .longest none b (.simple e) ts k)
    (hk : k ≠ .openBracket) (hts : ahead ts k ≠ .openParen) :
    Derives .longest none b (.expression e) ts k := by
  simpa using Derives.expression_of_subscripts hs .subscriptsEnd hk hts

/-- A list of indices behind a name makes a subscript of it. -/
theorem derives_subscript {v o : Token} {es : List Expr} (hv : v.kind = .name)
    (ho : o.kind = .openBracket)
    (hs : Derives .longest none b (.listing (.index (.var v.text v.location)) es) ts .endOfInput) :
    Derives .longest none b (.expression
        (.subscript (.var v.text v.location) (.collect es o.location) o.location))
      (v :: o :: ts) .endOfInput := by
  have hatom : v.atom? = some (.var v.text v.location) := by rw [Token.atom?, hv]
  have hsubscripts := Derives.subscriptsMore ho hs .subscriptsEnd
  rw [List.append_nil] at hsubscripts
  have hnot : v.kind ≠ .openParen := by
    rw [hv]
    decide
  exact .expression_of_subscripts (.atom hatom) hsubscripts (by decide) hnot

/-- Expressions with commas between them are items of any list. -/
theorem derives_items (s : Shape) {uss : List (List Token)} {es : List Expr}
    (h : List.Forall₂ (fun ts e => Derives .longest none 0 (.expression e) ts .endOfInput) uss es)
    (hne : uss ≠ []) (b : Nat) (k : Kind) :
    Derives .longest none b (.items s es) (Token.join uss ++ [.symbol s.closer]) k := by
  induction h with
  | nil => exact absurd rfl hne
  | @cons ts e uss es he hes ih =>
    cases hes with
    | nil => exact .lastItem (.bare (he.within (follows_closer s) (b + 1))) rfl
    | cons =>
      have hcomma := he.within (k := .comma) ⟨rfl, by decide⟩ (b + 1)
      have hmore := Derives.moreItems (c := .symbol .comma) (.bare hcomma) rfl
        (ih (List.cons_ne_nil _ _))
      simpa [Token.join] using hmore

end

end Grammar

/-- **Indices behind a name are read as a subscript.** -/
theorem readsAs_subscript {name items : String} {o : Token} {ts : List Token} {es : List Expr}
    (hname : Lexeme.IsName name.toList) (h : Shows ("[" ++ items ++ "]").toList (o :: ts))
    (ho : o.kind = .openBracket)
    (hs : Grammar.Derives .longest none 0 (.listing (.index (.var name .origin)) es) ts .endOfInput) :
    ReadsAs (name ++ "[" ++ items ++ "]")
      (.subscript (.var name .origin) (.collect es .origin) .origin) := by
  obtain ⟨x, hx, hsame⟩ := exists_parse_of_shows (shows_subscript hname h)
    (Grammar.derives_subscript (v := .ofName name) rfl ho hs)
  have hbare : (Expr.subscript (.var name .origin) (.collect es .origin) .origin).bare =
      (Expr.subscript (.var name .origin) (.collect es o.location) o.location).bare := by
    show Expr.subscript _ (Expr.collect es .origin).bare _ =
      .subscript _ (Expr.collect es o.location).bare _
    rw [Expr.bare_collect, Expr.bare_collect]
  exact ⟨x, hx, (Expr.same_congr_bare hbare).trans hsame⟩

end EL
