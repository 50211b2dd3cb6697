import EL.Proofs.Assembly

/-!
# The branches of a switch

A switch lists expressions, and what stands between its braces is read like any list. **Every list of
expressions is a list of branches, unless the first one begins with a switch** (`parseStrict_switch`).
Two braces behind the two that open a switch are refused, where an operand and the end of the switch
are expected and nothing else. In every other branch a switch can come first, so it is only the order
of the branches that matters: `{{ a, {{}} }}` is a switch, and `{{ {{}}, a }}` is none.
-/

set_option autoImplicit false

namespace EL

open EL.Parser
open Text (joinWith)

/-- Texts as the branches of a switch, each with the end of its line. -/
def switchText (branches : List String) : String :=
  "\x7b\x7b " ++ (joinWith "\n, " branches ++ "\n \x7d\x7d")

/-- Does a text begin with a switch? -/
def BeginsWithSwitch (text : String) : Prop :=
  ∃ t, (Cursor.ofText text).peek = .ok t ∧ t.kind = .openSwitch

section
variable {texts : List String} {uss : List (List Token)}

/-- The tokens of a switch are those of its branches, with commas between them. -/
theorem shows_switchText
    (h : List.Forall₂ (fun text us => (Cursor.ofText text).Scans us) texts uss) :
    Shows (switchText texts).toList
      (.symbol .openSwitch :: (Token.join uss ++ [.symbol .closeSwitch])) := by
  have hclose : Shows [' ', '}', '}'] [.symbol .closeSwitch] :=
    shows_blank rfl (shows_symbol (s := ['}', '}']) rfl rfl rfl shows_nil)
  have hbranches := shows_join (h.imp fun _ _ => shows_line) hclose
  have hopen := shows_symbol (s := ['{', '{']) (k := .openSwitch) rfl rfl rfl
    (shows_blank (c := ' ') rfl hbranches)
  simpa [switchText] using hopen

/-- What a text begins with is its first token. -/
theorem beginsWithSwitch_iff {text : String} {t : Token} {us : List Token}
    (h : (Cursor.ofText text).Scans (t :: us)) :
    BeginsWithSwitch text ↔ t.kind = .openSwitch := by
  rw [BeginsWithSwitch, h.peek]
  simp

/-- Expressions are the branches of a switch, if the first of them can be. -/
theorem derives_switch {us : List Token} {e : Expr} {es : List Expr}
    (h : List.Forall₂ (fun us e => Grammar.Derives .longest none 0 (.expression e) us .endOfInput)
      (us :: uss) (e :: es)) (hfirst : Grammar.ahead us .endOfInput ≠ .openSwitch) :
    Grammar.Derives .longest none 0 (.expression (.switch (e :: es) .origin))
      (.symbol .openSwitch :: (Token.join (us :: uss) ++ [.symbol .closeSwitch])) .endOfInput := by
  obtain ⟨t, vs, rfl, ht⟩ : ∃ t vs, us = t :: vs ∧ t.kind ∈ TokenSet.operand := by
    cases h with
    | cons he => exact he.begins
  have hsimple : t.kind ∈ TokenSet.simpleTerm := by
    rcases TokenSet.mem_union.mp ht with hs | hs
    · exact hs
    · exact absurd (TokenSet.mem_singleton.mp hs) hfirst
  have hahead : Grammar.ahead (Token.join ((t :: vs) :: uss) ++ [.symbol .closeSwitch]) .endOfInput =
      t.kind := by
    cases uss <;> rfl
  have hitems := Grammar.derives_items .switch h (List.cons_ne_nil _ _) 0 .endOfInput
  have hlisting := Grammar.Derives.someItems (fun _ => hahead ▸ hsimple) hitems
  have hoperand := Grammar.Derives.switch (o := .symbol .openSwitch) (Grammar.admits_none 1) rfl hlisting
  exact hoperand.expression_of_operand (show Kind.openSwitch ≠ .openParen by decide)

/-- **A switch behind the braces that open a switch is refused.** -/
theorem parseStrict_of_switches {text : String} {o t : Token} {ts : List Token}
    (h : (Cursor.ofText text).Scans (o :: t :: ts)) (ho : o.kind = .openSwitch)
    (ht : t.kind = .openSwitch) :
    parseStrict text = .error (.expected (.simpleTerm ∪ {.closeSwitch}) t) := by
  obtain ⟨stop, htokens, -⟩ := h
  have htokens : (Cursor.ofText text).tokens = .ok ([o] ++ t :: (ts ++ [stop])) := htokens
  obtain ⟨here, after, hreads, hn⟩ := Cursor.exists_reads_of_tokens htokens
  have hshift : shifts? none .initial [o] =
      some ⟨.firstItem ⟨.switch, o.location, []⟩, .fresh 0, []⟩ := by
    simp [shifts?, State.initial, step, beginExpression, beginOperand, beginOperand?, ho]
  have hrefuse : step none ⟨.firstItem ⟨.switch, o.location, []⟩, .fresh 0, []⟩ t =
      .refuse (.expected (.simpleTerm ∪ {.closeSwitch}) t) false := by
    have hne : t.kind ≠ Listing.closer ⟨.switch, o.location, []⟩ := by
      rw [ht]
      show Kind.openSwitch ≠ .closeSwitch
      decide
    have hnot : t.kind ∉ TokenSet.simpleTerm := by
      rw [ht]
      decide
    simp only [step, if_neg hne, if_neg hnot, need]
  have hrefuses : Refuses none .initial (Cursor.ofText text) _ false [o] here t after :=
    ⟨hreads, hn, _, hshift, hrefuse⟩
  rw [parseStrict, hrefuses.parse]
  rfl

end

/-- **Any list of expressions is a switch, if the first of them does not begin with one.** Texts that
    are read strictly, put between the braces of a switch, are read as the switch of their trees if the
    first text does not begin with a switch. If it does, its first token is refused. -/
theorem parseStrict_switch {first : String} {rest : List String} {e : Expr} {es : List Expr}
    (h : parseStrict first = .ok e)
    (hrest : List.Forall₂ (fun text e => parseStrict text = .ok e) rest es) :
    (¬ BeginsWithSwitch first →
      ∃ x, parseStrict (switchText (first :: rest)) = .ok x ∧
        x.same (.switch (e :: es) .origin) = true) ∧
    (BeginsWithSwitch first →
      ∃ t, t.kind = .openSwitch ∧ parseStrict (switchText (first :: rest)) =
        .error (.expected (.simpleTerm ∪ {.closeSwitch}) t)) := by
  obtain ⟨uss, htexts, htrees⟩ := exists_derives_of_parses (.cons h hrest)
  have hshows := shows_switchText htexts
  cases htexts with
  | @cons _ us _ uss hscans htexts =>
    obtain ⟨t, vs, rfl, -⟩ : ∃ t vs, us = t :: vs ∧ t.kind ∈ TokenSet.operand := by
      cases htrees with
      | cons he => exact he.begins
    rw [beginsWithSwitch_iff hscans]
    constructor
    · intro ht
      exact exists_parse_of_shows hshows (derives_switch htrees ht)
    · intro ht
      obtain ⟨ts, hts, hbare⟩ := hshows (.start .origin)
      obtain ⟨ws, hjoin⟩ : ∃ ws, Token.join ((t :: vs) :: uss) ++ [.symbol .closeSwitch] = t :: ws := by
        cases uss <;> exact ⟨_, rfl⟩
      rw [hjoin] at hbare
      obtain ⟨o, ts, rfl, ho, hbare⟩ := List.map_eq_cons_iff.mp hbare
      obtain ⟨t', ts, rfl, ht', -⟩ := List.map_eq_cons_iff.mp hbare
      have hkind : t'.kind = .openSwitch := (congrArg Token.kind ht').trans ht
      exact ⟨t', hkind, parseStrict_of_switches hts (congrArg Token.kind ho) hkind⟩

/-- In `{{ a, {{}} }}` the second branch is a switch, and with the branches exchanged there is none. -/
theorem parseStrict_switch_order :
    (∃ x, parseStrict (switchText ["a", "\x7b\x7b\x7d\x7d"]) = .ok x ∧
      x.same (.switch [.var "a" ⟨1, 1⟩, .switch [] ⟨1, 1⟩] .origin) = true) ∧
    ∃ t, t.kind = .openSwitch ∧ parseStrict (switchText ["\x7b\x7b\x7d\x7d", "a"]) =
      .error (.expected (.simpleTerm ∪ {.closeSwitch}) t) := by
  have hname : parseStrict "a" = .ok (.var "a" ⟨1, 1⟩) :=
    parseStrict_eq_ok_iff.mpr ⟨_, Cursor.tokens_of_scanWithin 2 rfl, rfl⟩
  have hswitch : parseStrict "\x7b\x7b\x7d\x7d" = .ok (.switch [] ⟨1, 1⟩) :=
    parseStrict_eq_ok_iff.mpr ⟨_, Cursor.tokens_of_scanWithin 3 rfl, rfl⟩
  have hnot : ¬ BeginsWithSwitch "a" := by
    rintro ⟨t, ht, hk⟩
    cases ht
    cases hk
  exact ⟨(parseStrict_switch hname (.cons hswitch .nil)).1 hnot,
    (parseStrict_switch hswitch (.cons hname .nil)).2 ⟨_, rfl, rfl⟩⟩

/-- Not every list of expressions is a switch. -/
theorem not_all_parseStrict_switch :
    ¬ ∀ texts es, texts ≠ [] → List.Forall₂ (fun text e => parseStrict text = .ok e) texts es →
      ∃ x, parseStrict (switchText texts) = .ok x ∧ x.same (.switch es .origin) = true := by
  intro h
  have hswitch : parseStrict "\x7b\x7b\x7d\x7d" = .ok (.switch [] ⟨1, 1⟩) :=
    parseStrict_eq_ok_iff.mpr ⟨_, Cursor.tokens_of_scanWithin 3 rfl, rfl⟩
  obtain ⟨x, hx, -⟩ := h _ _ (List.cons_ne_nil _ _) (.cons hswitch .nil)
  obtain ⟨ts, hts, hread⟩ := parseStrict_eq_ok_iff.mp hx
  rw [Cursor.tokens_of_scanWithin (c := Cursor.ofText _) 5 rfl] at hts
  cases hts
  cases hread

end EL
