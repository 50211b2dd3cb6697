import EL.Proofs.Assembly
import EL.Proofs.Lines

/-!
# What stands in parentheses

A text can be put in parentheses if it is read by itself. The other way round there is an exception.
Parentheses with which a text begins are never an operand of it, and so they take no subscript, but
within other parentheses they are one and do. So **what is read in parentheses is read without them,
unless it begins with parentheses that are subscripted** (`parseStrict_parentheses`); then it is
refused at the bracket of the subscript.
-/

set_option autoImplicit false

namespace EL

open EL.Parser

namespace Expr

/-- Does a tree begin with parentheses that are subscripted? -/
def SubscriptsGroup : Expr → Prop
  | binary _ l _ _ => l.SubscriptsGroup
  | subscript x _ _ => x.BeginsInGroup ∨ x.SubscriptsGroup
  | _ => False

/-! ## How such trees are printed -/

theorem ahead_tokens_of_beginsInGroup : ∀ {e : Expr}, e.BeginsInGroup → ∀ k,
    Grammar.ahead e.tokens k = .openParen
  | unary .group _ _, _, _ => rfl
  | binary _ l _ _, h, k => by
    rw [tokens, Grammar.ahead_append]
    exact ahead_tokens_of_beginsInGroup h.2 _

theorem ahead_tokens_of_subscriptsGroup : ∀ {e : Expr}, e.SubscriptsGroup → ∀ k,
    Grammar.ahead e.tokens k = .openParen
  | binary _ l _ _, h, k => by
    rw [tokens, Grammar.ahead_append]
    exact ahead_tokens_of_subscriptsGroup (e := l) h _
  | subscript x i _, h, k => by
    rw [tokens_subscript, Grammar.ahead_append]
    exact h.elim (ahead_tokens_of_beginsInGroup · _) (ahead_tokens_of_subscriptsGroup · _)

end Expr

namespace Grammar

variable {limit : Option Nat} {b : Nat} {ts : List Token} {k : Kind} {e : Expr}

/-! ## How such trees are derived -/

/-- Subscripts behind parentheses are all that makes such a tree. -/
def Phrase.KeepsGroup (p : Phrase) (ts : List Token) : Prop :=
  match p with
  | .simple e => ¬ e.SubscriptsGroup
  | .subscripts e e' => ts = [] ∧ e' = e ∨ (e'.SubscriptsGroup ↔ e.BeginsInGroup ∨ e.SubscriptsGroup)
  | .tail e e' => e'.SubscriptsGroup ↔ e.SubscriptsGroup
  | _ => True

theorem Derives.keepsGroup {p : Phrase} (h : Derives .longest limit b p ts k) : p.KeepsGroup ts := by
  induction h with
  | tailEnd => exact Iff.rfl
  | tailMore _ _ _ _ ihu => exact ihu
  | atom ht => rcases Token.eq_of_atom? ht with ⟨v, loc, rfl⟩ | ⟨x, loc, rfl⟩ <;> exact id
  | sign | array | emptyMap | map => exact id
  | parens _ _ _ _ _ _ ihu => exact ihu.not.mpr id
  | subscriptsEnd => exact .inl ⟨rfl, rfl⟩
  | subscriptsMore _ _ _ _ ihu =>
    rcases ihu with ⟨-, rfl⟩ | h
    · exact .inr Iff.rfl
    · exact .inr (h.trans (or_iff_right id))
  | _ => exact trivial

/-- An expression does not begin with parentheses that are subscripted. -/
theorem Derives.not_subscriptsGroup (h : Derives .longest limit b (.expression e) ts k) :
    ¬ e.SubscriptsGroup := by
  cases h with
  | grouped _ _ _ hu => exact hu.keepsGroup.not.mpr id
  | ungrouped hbegins ht =>
    intro hgroup
    rw [← ht.outline.1 k, Expr.ahead_tokens_of_subscriptsGroup hgroup] at hbegins
    exact hbegins rfl

/-! ## Expressions and terms -/

/-- An expression is a term, before a token that goes on with neither. -/
theorem Derives.term_of_expression (h : Derives .longest none b (.expression e) ts k)
    (hk : Follows k) : Derives .longest none b (.term e) ts k := by
  cases h with
  | ungrouped _ ht => exact ht
  | @grouped _ o c us vs _ x _ ho hc ht hu =>
    have hparens := Derives.parens ho hc (ht.rebase (b + 1) (.refl _)) (hu.rebase (b + 1) (.refl _)) hk.1
    have hterm := Derives.chain (.subscripted (admits_none _) hparens .subscriptsEnd hk.2) .tailEnd
    simpa using hterm

/-- **A term that begins with parentheses begins with an expression**, and what follows that is a
    subscript or nothing. -/
theorem Derives.exists_expression (h : Derives .longest none b (.term e) ts k)
    (hts : ahead ts k = .openParen) :
    ∃ x y us vs ws, ts = us ++ (vs ++ ws) ∧ x.BeginsInGroup ∧
      Derives .longest none b (.expression x) us (ahead vs (ahead ws k)) ∧
      BinaryOp.ofKind? (ahead vs (ahead ws k)) = none ∧
      Derives .longest none b (.subscripts x y) vs (ahead ws k) ∧
      Derives .longest none b (.tail y e) ws k := by
  cases h with
  | @chain _ us ws _ y _ ho hu =>
    cases ho with
    | switch _ ho =>
      rw [List.cons_append, ahead_cons, ho] at hts
      cases hts
    | @subscripted _ us vs _ x _ _ hs hsub hend =>
      rw [List.append_assoc]
      cases hs with
      | @atom _ t _ _ ht =>
        have ht' : t.kind = .openParen := hts
        rw [Token.atom?, ht'] at ht
        cases ht
      | @sign _ t _ _ _ _ ht =>
        have ht' : t.kind = .openParen := hts
        rw [ht'] at ht
        cases ht
      | array ho | emptyMap ho | map ho => exact absurd (ho.symm.trans hts) (by decide)
      | parens ho hc ht hv hk =>
        have hends : Policy.longest.EndsAs (ahead vs (ahead ws k)) (ahead vs (ahead ws k)) := .refl _
        exact ⟨_, _, _, _, _, rfl, hv.endsWhereItCan trivial,
          .grouped ho hc (ht.rebase b (.refl _)) (hv.rebase b hends), hk, hsub, hu⟩

/-- **A term is an expression, unless it begins with parentheses that are subscripted.** If it does,
    there is an expression in front of the subscript. -/
theorem Derives.expression_or_subscript (h : Derives .longest none b (.term e) ts k) :
    (¬ e.SubscriptsGroup → Derives .longest none b (.expression e) ts k) ∧
    (e.SubscriptsGroup → ∃ x us t vs, ts = us ++ t :: vs ∧ t.kind = .openBracket ∧
      Derives .longest none b (.expression x) us .openBracket) := by
  by_cases hts : ahead ts k = .openParen
  · obtain ⟨x, y, us, vs, ws, rfl, hx, hexpr, hop, hsub, hu⟩ := h.exists_expression hts
    cases hsub with
    | subscriptsEnd =>
      -- All operators stand behind the parentheses already.
      cases hu with
      | tailMore ht => exact absurd (ht.symm.trans hop) nofun
      | tailEnd =>
        rw [List.append_nil, List.append_nil]
        exact ⟨fun _ => hexpr, fun hgroup => absurd hgroup hexpr.not_subscriptsGroup⟩
    | @subscriptsMore _ o us' vs' _ _ _ es ho hs hmore =>
      have hgroup : e.SubscriptsGroup := by
        have hy := (Derives.subscriptsMore ho hs hmore).keepsGroup
        refine hu.keepsGroup.mpr ?_
        rcases hy with ⟨hnil, -⟩ | hy
        · cases hnil
        · exact hy.mpr (.inl hx)
      rw [ahead_cons, ho] at hexpr
      exact ⟨fun hnot => absurd hgroup hnot,
        fun _ => ⟨x, us, o, us' ++ vs' ++ ws, by simp, ho, hexpr⟩⟩
  · refine ⟨fun _ => .ungrouped hts h, fun hgroup => absurd ?_ hts⟩
    rw [← h.outline.1 k k]
    exact Expr.ahead_tokens_of_subscriptsGroup hgroup k

end Grammar

/-! ## Texts -/

/-- The text in parentheses, with the end of its line. -/
def parenthesesText (text : String) : String := "(" ++ text ++ "\n)"

@[simp] theorem toList_parenthesesText (text : String) :
    (parenthesesText text).toList = '(' :: (text.toList ++ '\n' :: [')']) := by
  simp [parenthesesText]

section
variable {text : String} {us vs : List Token} {t : Token} {e : Expr}

theorem shows_parenthesesText (h : (Cursor.ofText text).Scans us) :
    Shows (parenthesesText text).toList
      (.symbol .openParen :: (us ++ [.symbol .closeParen])) := by
  have hclose : Shows [')'] [.symbol .closeParen] :=
    shows_symbol (s := [')']) rfl rfl rfl shows_nil
  rw [toList_parenthesesText]
  exact shows_symbol (s := ['(']) rfl rfl rfl (shows_line h hclose)

/-- What is read by itself is read in parentheses. -/
theorem readsAs_parentheses (h : parseStrict text = .ok e) :
    ReadsAs (parenthesesText text) (.unary .group e .origin) := by
  obtain ⟨us, hscans, hd⟩ := parse_strict_iff_derives.mp h
  have hterm := hd.term_of_expression ⟨rfl, nofun⟩
  have hinside : Grammar.Derives .longest none 0 (.term e) us .closeParen :=
    hterm.rebase 0 ⟨fun _ => rfl, fun _ => nofun⟩
  have hgroup := Grammar.Derives.grouped (o := .symbol .openParen) (c := .symbol .closeParen)
    (k := .endOfInput) rfl rfl hinside .tailEnd
  exact exists_parse_of_shows (shows_parenthesesText hscans) hgroup

/-- What is read in parentheses is a term, and the text in them is scanned to its tokens. -/
theorem exists_term_of_parentheses {loc : Location}
    (h : parseStrict (parenthesesText text) = .ok (.unary .group e loc)) :
    ∃ us, Shows text.toList us ∧ Grammar.Derives .longest none 0 (.term e) us .closeParen := by
  obtain ⟨ts, ⟨stop, htokens, hstop⟩, hd⟩ := parse_strict_iff_derives.mp h
  obtain ⟨o, us, c, rfl, hterm⟩ : ∃ o us c, ts = o :: (us ++ [c]) ∧
      Grammar.Derives .longest none 0 (.term e) us .closeParen := by
    cases hd with
    | ungrouped hbegins ht => exact absurd (ht.outline.1 .endOfInput .endOfInput).symm hbegins
    | grouped _ _ ht hu =>
      obtain ⟨-, -, -, ⟨rfl, heq⟩ | hchain⟩ := hu.outline
      · cases heq
        exact ⟨_, _, _, rfl, ht⟩
      · cases hchain
  refine ⟨us, ?_, hterm⟩
  obtain ⟨after, hn, hmore⟩ := Cursor.next_of_tokens htokens
  obtain ⟨-, hinside⟩ := hmore (by simp)
  have htext : Cursor.ofText (parenthesesText text) =
      ⟨'(' :: (text.toList ++ '\n' :: [')']), .start .origin⟩ :=
    congrArg (Cursor.mk · (.start .origin)) (toList_parenthesesText text)
  have hopen := Cursor.next_lexeme (c := '(') (r := text.toList ++ '\n' :: [')'])
    (x := ⟨.openParen, ['(']⟩) rfl rfl rfl (.start .origin)
  rw [htext, hopen] at hn
  cases hn
  obtain ⟨vs, ws, q, hsplit, hvs, hws⟩ :=
    Cursor.Scans.exists_of_line (by simp) ⟨stop, hinside, hstop⟩
  obtain ⟨stop', hclose, -⟩ := hws
  obtain ⟨c', rfl⟩ : ∃ c', ws = [c'] := by
    rw [Cursor.tokens_of_scanWithin 2 rfl] at hclose
    have htokens : [_] ++ [_] = ws ++ [stop'] := Except.ok.inj hclose
    exact ⟨_, (List.append_inj' htokens rfl).1.symm⟩
  obtain ⟨rfl, -⟩ := List.append_inj' hsplit rfl
  exact shows_of_scans hvs

/-- What could end in front of a subscript, and does not go on with it, is refused there. -/
theorem parseStrict_of_openBracket (h : (Cursor.ofText text).Scans (us ++ t :: vs))
    (ht : t.kind = .openBracket)
    (hread : read? none .initial (us ++ [.symbol .endOfInput]) = some e)
    (hnone : ∀ rest, read? none .initial (us ++ t :: rest) = none) :
    parseStrict text = .error (.expected {.endOfInput} t) := by
  obtain ⟨hkinds, -⟩ := List.forall_mem_append.mp h.kind_ne
  obtain ⟨s, hshifts, hread'⟩ := exists_shifts?_of_read? hkinds hread
  have haccept : step none s (.symbol .endOfInput) = .accept e := by
    rcases read?_cons_eq_some hread' with ⟨s', -, hnil⟩ | ⟨hs, -⟩
    · cases hnil
    · exact hs
  obtain ⟨x, hx⟩ : ∃ x, step none s t = .accept x := by
    rcases step_openBracket ht haccept with ⟨s', hs⟩ | hs
    · -- What goes on with the bracket could be completed.
      obtain ⟨x, hx⟩ := completes s' (s'.completion.map Token.symbol) (.symbol .endOfInput)
        (by simp [Function.comp_def]) rfl
      have hsome := hnone (s'.completion.map Token.symbol ++ [.symbol .endOfInput])
      rw [read?_of_shifts? hshifts, read?_shift hs, hx] at hsome
      cases hsome
    · exact ⟨e, hs⟩
  obtain ⟨stop, htokens, -⟩ := h
  rw [List.append_assoc, List.cons_append] at htokens
  obtain ⟨here, after, hreads, hn⟩ := Cursor.exists_reads_of_tokens htokens
  have haccepts : Accepts none .initial (Cursor.ofText text) x us here t after :=
    ⟨hreads, hn, s, hshifts, hx⟩
  rw [parseStrict, haccepts.parse_strict, if_neg (by simp [ht])]
  rfl

theorem parseStrict_of_subscriptsGroup (hshows : Shows text.toList us)
    (hterm : Grammar.Derives .longest none 0 (.term e) us .closeParen) (he : e.SubscriptsGroup) :
    ∃ t, t.kind = .openBracket ∧ parseStrict text = .error (.expected {.endOfInput} t) := by
  obtain ⟨x, us, t, vs, rfl, ht, hx⟩ := hterm.expression_or_subscript.2 he
  have hend : Grammar.Derives .longest none 0 (.expression x) us .endOfInput :=
    hx.rebase 0 ⟨fun _ => rfl, fun _ => nofun⟩
  obtain ⟨us', vs', hscans, hus, hvs⟩ := exists_scans_of_shows hshows
  obtain ⟨t', vs', rfl, ht', -⟩ := List.map_eq_cons_iff.mp hvs
  have hkind : t'.kind = .openBracket := (congrArg Token.kind ht').trans ht
  have hbare (ws : List Token) : (us' ++ ws).map Token.bare = (us ++ ws).map Token.bare := by
    rw [List.map_append, List.map_append, hus]
  obtain ⟨e', he'⟩ := exists_read?_of_bare (hbare [.symbol .endOfInput]) (hend.read? rfl)
  refine ⟨t', hkind, parseStrict_of_openBracket hscans hkind he' fun rest => ?_⟩
  -- The grammar has ended the expression in front of the bracket, and the text goes on there.
  have hruns := hx.runs (Grammar.respects_longest none) [] t' rest hkind
  have hop : BinaryOp.ofKind? t'.kind = none := by rw [hkind]; rfl
  have hnone : read? none .initial (us ++ t' :: rest) = none := by
    refine hruns.symm.trans (Option.eq_none_iff_forall_ne_some.mpr fun y hy => ?_)
    obtain ⟨hstop, -⟩ := (Grammar.read?_end hop).mp hy
    exact absurd (hkind.symm.trans hstop) nofun
  have hsame := @read?_bare none .initial _ _ (hbare (t' :: rest))
  rw [hnone, Option.map_none, Option.map_eq_none_iff] at hsame
  exact hsame

end

/-- **What is read in parentheses is read without them, unless it begins with parentheses that are
    subscripted.** A text that is read by itself is read in parentheses too. If a text in parentheses is
    read as parentheses around a tree, then the text by itself is read as the tree, or the tree begins
    with parentheses that are subscripted. In that case the text by itself is refused where the
    subscript begins, and its end is expected. -/
theorem parseStrict_parentheses (text : String) :
    (∀ e, parseStrict text = .ok e → ¬ e.SubscriptsGroup ∧
      ReadsAs (parenthesesText text) (.unary .group e .origin)) ∧
    ∀ e loc, parseStrict (parenthesesText text) = .ok (.unary .group e loc) →
      (¬ e.SubscriptsGroup → ReadsAs text e) ∧
      (e.SubscriptsGroup → ∃ t, t.kind = .openBracket ∧
        parseStrict text = .error (.expected {.endOfInput} t)) := by
  constructor
  · intro e h
    obtain ⟨us, -, hd⟩ := parse_strict_iff_derives.mp h
    exact ⟨hd.not_subscriptsGroup, readsAs_parentheses h⟩
  · intro e loc h
    obtain ⟨us, hshows, hterm⟩ := exists_term_of_parentheses h
    refine ⟨fun he => exists_parse_of_shows hshows ?_, parseStrict_of_subscriptsGroup hshows hterm⟩
    exact (hterm.expression_or_subscript.1 he).rebase 0 ⟨fun _ => rfl, fun _ => nofun⟩

/-- In `((a) + b)` there is an expression, and in `((a)[b])` there is none. -/
theorem parseStrict_parentheses_subscript :
    ReadsAs "(a) + b" (.binary .addition (.unary .group (.var "a" ⟨1, 3⟩) ⟨1, 2⟩)
      (.var "b" ⟨1, 8⟩) ⟨1, 6⟩) ∧
    ∃ t, t.kind = .openBracket ∧ parseStrict "(a)[b]" = .error (.expected {.endOfInput} t) := by
  have hsum : parseStrict (parenthesesText "(a) + b") = .ok (.unary .group (.binary .addition
      (.unary .group (.var "a" ⟨1, 3⟩) ⟨1, 2⟩) (.var "b" ⟨1, 8⟩) ⟨1, 6⟩) ⟨1, 1⟩) :=
    parseStrict_eq_ok_iff.mpr ⟨_, Cursor.tokens_of_scanWithin 8 rfl, rfl⟩
  have hsubscript : parseStrict (parenthesesText "(a)[b]") = .ok (.unary .group (.subscript
      (.unary .group (.var "a" ⟨1, 3⟩) ⟨1, 2⟩) (.var "b" ⟨1, 6⟩) ⟨1, 5⟩) ⟨1, 1⟩) :=
    parseStrict_eq_ok_iff.mpr ⟨_, Cursor.tokens_of_scanWithin 9 rfl, rfl⟩
  exact ⟨((parseStrict_parentheses _).2 _ _ hsum).1 id,
    ((parseStrict_parentheses _).2 _ _ hsubscript).2 (.inl trivial)⟩

/-- Not everything that is read in parentheses is read without them. -/
theorem not_all_parseStrict_parentheses :
    ¬ ∀ text e loc, parseStrict (parenthesesText text) = .ok (.unary .group e loc) →
      ReadsAs text e := by
  intro h
  have hsubscript : parseStrict (parenthesesText "(a)[b]") = .ok (.unary .group (.subscript
      (.unary .group (.var "a" ⟨1, 3⟩) ⟨1, 2⟩) (.var "b" ⟨1, 6⟩) ⟨1, 5⟩) ⟨1, 1⟩) :=
    parseStrict_eq_ok_iff.mpr ⟨_, Cursor.tokens_of_scanWithin 9 rfl, rfl⟩
  obtain ⟨x, hx, -⟩ := h _ _ _ hsubscript
  obtain ⟨ts, hts, hread⟩ := parseStrict_eq_ok_iff.mp hx
  rw [Cursor.tokens_of_scanWithin (c := Cursor.ofText _) 7 rfl] at hts
  cases hts
  cases hread

end EL
