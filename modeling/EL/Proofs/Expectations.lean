import EL.Proofs.Completion
import EL.Proofs.Layout
import EL.Proofs.Refusals

/-!
# What a syntax error promises

A syntax error names a token and the kinds of token of which one was expected in its place. **All of
that is so** (`parseStrict_expected`). No text that is accepted begins with the tokens up to the one
that is named. Up to the one before it some do: a token of any of the expected kinds can be written
behind them, and what is still open can be closed. The first token at which the text went wrong is
therefore the one that the error points to.

It is shown on texts, not on tokens. The text in front of the token is kept with its blanks and its
comments, and goes on in a new line. That the tokens in front are read as before takes some care, since
lexemes look ahead (`exists_cut`).
-/

set_option autoImplicit false

namespace EL

/-! ## Tokens of given kinds -/

/-- A way to write a token of this kind. -/
def Kind.sample (k : Kind) : List Char :=
  match k with
  | .name => ['x']
  | .string => ['"', '"']
  | .number => ['0']
  | .boolean => ['t', 'r', 'u', 'e']
  | .null => ['n', 'u', 'l', 'l']
  | k => k.spelling?.getD []

/-- What is read of a sample. -/
def Kind.lexeme (k : Kind) : Lexeme := ⟨k, k.sample⟩

theorem read_sample {k : Kind} (hk : k ≠ .endOfInput) (cs : List Char) :
    ∃ c r, k.sample ++ ' ' :: cs = c :: r ∧ gap (c :: r) = [] ∧ Lexeme.read c r = .ok k.lexeme := by
  cases k <;> first | exact absurd rfl hk | exact ⟨_, _, rfl, rfl, rfl⟩

theorem Kind.usable_sample (k : Kind) : k.lexeme.token.Usable := by
  intro hk
  obtain rfl : k = .number := hk
  exact ⟨_, _, rfl⟩

/-- One token of each of these kinds. -/
def Kind.samples (ks : List Kind) : List Token := ks.map fun k => k.lexeme.token

theorem Kind.map_bare_samples (ks : List Kind) : (samples ks).map Token.bare = samples ks := by
  rw [samples, List.map_map]
  rfl

theorem Kind.map_kind_samples (ks : List Kind) : (samples ks).map Token.kind = ks := by
  rw [samples, List.map_map]
  exact List.map_id ks

/-- Samples of kinds, with spaces between them. -/
def Kind.written (ks : List Kind) : List Char := ks.flatMap fun k => k.sample ++ [' ']

theorem Kind.spells_written {ks : List Kind} (h : ∀ k ∈ ks, k ≠ .endOfInput) :
    Spells (Kind.written ks) (Kind.samples ks) := by
  induction ks with
  | nil => exact .nil
  | cons k ks ih =>
    obtain ⟨hk, hks⟩ := List.forall_mem_cons.mp h
    have hwritten : Kind.written (k :: ks) = k.sample ++ ' ' :: Kind.written ks := by
      simp [Kind.written]
    obtain ⟨c, r, hcr, hgap, hread⟩ := read_sample hk (Kind.written ks)
    rw [hwritten, hcr]
    exact .lexeme hgap hread hcr.symm (.space (ih hks))

namespace Parser

/-! ## Going on -/

/-- A parser in this state can go on with a token of this kind: there is a text that begins with one
    and is read to the end of an expression, wherever it stands. -/
def Continues (s : State) (k : Kind) : Prop :=
  ∃ w u, (Cursor.ofText w).peek = .ok u ∧ u.kind = k ∧ u.start.offset = 0 ∧
    (k = .endOfInput → w = "") ∧
    ∀ p, ∃ ts e, (⟨w.toList, p⟩ : Cursor).tokens = .ok ts ∧ read? none s ts = some e

/-- Tokens that differ in places only make up the same tree, places aside. -/
theorem read?_bare {limit : Option Nat} {s : State} {us vs : List Token}
    (hvs : vs.map Token.bare = us.map Token.bare) :
    (read? limit s vs).map Expr.bare = (read? limit s us).map Expr.bare := by
  have hus := read?_relocate (fun _ => .origin) limit s us
  have hread := read?_relocate (fun _ => .origin) limit s vs
  unfold Token.bare at hvs
  rw [hvs] at hread
  exact hread.symm.trans hus

theorem exists_read?_of_bare {limit : Option Nat} {s : State} {us vs : List Token} {e : Expr}
    (hvs : vs.map Token.bare = us.map Token.bare) (h : read? limit s us = some e) :
    ∃ e', read? limit s vs = some e' := by
  have hread := @read?_bare limit s us vs hvs
  rw [h, Option.map_some] at hread
  obtain ⟨e', he', -⟩ := Option.map_eq_some_iff.mp hread
  exact ⟨e', he'⟩

theorem continues_of_shift {s : State} {k : Kind}
    (h : ∀ u : Token, u.kind = k → u.Usable → ∃ s', step none s u = .shift s') : Continues s k := by
  obtain ⟨s', hs⟩ := h k.lexeme.token rfl k.usable_sample
  have hk : k ≠ .endOfInput := kind_ne_of_shift hs
  -- After the token, the expression is completed as any expression can be from there.
  have hks : ∀ k' ∈ k :: s'.completion, k' ≠ .endOfInput :=
    List.forall_mem_cons.mpr ⟨hk, fun k' hk' => ne_endOfInput_of_mem_completion hk'⟩
  have hspells := Kind.spells_written hks
  obtain ⟨c, r, hcr, hgap, hread⟩ := read_sample hk (Kind.written s'.completion)
  have hwritten : Kind.written (k :: s'.completion) = c :: r := by
    rw [← hcr]
    simp [Kind.written]
  refine ⟨String.ofList (c :: r), ⟨k, String.ofList k.lexeme.text, .start .origin⟩, ?_, rfl, rfl,
    fun hend => absurd hend hk, ?_⟩
  · rw [Cursor.peek, Cursor.ofText, Cursor.start, String.toList_ofList,
      Cursor.next_lexeme hgap hread hcr.symm]
    rfl
  · intro p
    rw [String.toList_ofList, ← hwritten]
    obtain ⟨us, ⟨stop, htokens, hstop⟩, hus⟩ := Cursor.scans_of_spells hspells p
    obtain ⟨e, he⟩ := completes s' (Kind.samples s'.completion) stop (Kind.map_kind_samples _) hstop
    have hsamples : read? none s (Kind.samples (k :: s'.completion) ++ [stop]) = some e := by
      rw [Kind.samples, List.map_cons, List.cons_append, read?_shift hs]
      exact he
    have hbare : (us ++ [stop]).map Token.bare =
        (Kind.samples (k :: s'.completion) ++ [stop]).map Token.bare := by
      rw [List.map_append, List.map_append, hus, Kind.map_bare_samples]
    obtain ⟨e', he'⟩ := exists_read?_of_bare hbare hsamples
    exact ⟨us ++ [stop], e', htokens, he'⟩

theorem continues_endOfInput {s : State} {t : Token} {e : Expr} (h : step none s t = .accept e) :
    Continues s .endOfInput := by
  refine ⟨"", ⟨.endOfInput, "", .start .origin⟩, rfl, rfl, rfl, fun _ => rfl, ?_⟩
  intro p
  have hend := Cursor.next_of_gap (c := ⟨[], p⟩) rfl
  refine ⟨_, e, Cursor.tokens_of_end hend rfl, ?_⟩
  rw [read?, step_accept_endOfInput rfl h]
  exact if_pos rfl

end Parser

/-! ## The text in front of a token -/

/-- **The text in front of a token can go on in another way.** It ends where the token began, and with
    other lines behind it the tokens in front are what they were. -/
theorem exists_cut {text : String} {here after : Cursor} {ts : List Token} {t : Token}
    (hts : (Cursor.ofText text).Reads ts here) (hn : here.next = (.ok t, after)) :
    ∃ p q : String, text = p ++ q ∧ byteLength p.toList = t.start.offset ∧
      ∀ w : String, ∃ position, (Cursor.ofText (p ++ "\n" ++ w)).tokens =
        (⟨w.toList, position⟩ : Cursor).tokens.map (ts ++ ·) := by
  obtain ⟨v, hv, hhere⟩ := hts.onward
  have hv : text.toList = v ++ here.rest := hv
  have hgap : gap (gap here.rest) = gap here.rest := gapFrom_gapFrom false here.rest
  have hrest : here.rest = gap here.rest ++ here.skipGap.rest := here.gap_append_rest.symm
  refine ⟨String.ofList (v ++ gap here.rest), String.ofList here.skipGap.rest, ?_, ?_, ?_⟩
  · rw [← String.ofList_append, List.append_assoc, ← hrest, ← hv, String.ofList_toList]
  · rw [String.toList_ofList, Cursor.start_of_next hn]
    show _ = (here.position.advance (gap here.rest)).offset
    rw [hhere, ← Position.advance_append]
    exact (Nat.zero_add _).symm
  · intro w
    -- The blanks and comments in front of the token are kept, so that nothing moves together.
    have hreplace : MayReplace here.rest (gap here.rest ++ '\n' :: w.toList) := by
      have hline := (MayReplace.line here.skipGap.rest w.toList).append (gap here.rest)
      rwa [← hrest] at hline
    obtain ⟨v', hv', -, hreads⟩ :=
      hts.replace hreplace fun _ _ _ => beginsWithPoint_newLine hgap w.toList
    obtain rfl : v = v' := List.append_cancel_right (hv.symm.trans hv')
    have htext : (⟨v ++ (gap here.rest ++ '\n' :: w.toList), (Cursor.ofText text).position⟩ : Cursor) =
        Cursor.ofText (String.ofList (v ++ gap here.rest) ++ "\n" ++ w) := by
      simp [Cursor.ofText, Cursor.start]
    rw [htext] at hreads
    refine ⟨(here.position.advance (gap here.rest)).advance ['\n'], ?_⟩
    have hline := (Cursor.next_newLine hgap w.toList here.position).trans
      (Cursor.next_blank rfl w.toList _)
    rw [hreads.tokens, Cursor.tokens_congr hline]

/-! ## Errors -/

namespace Parser

/-- What is behind a syntax error: the run had come to a state in which the kinds that are named can
    go on, and the token cannot. -/
theorem exists_diagnosis {text : String} {x : ParseError} (h : parseStrict text = .error x)
    (hx : x.stage = .syntactic) :
    ∃ (S : TokenSet) (ts : List Token) (here after : Cursor) (t : Token) (s : State),
      x = .expected S t ∧ (Cursor.ofText text).Reads ts here ∧ here.next = (.ok t, after) ∧
      shifts? none .initial ts = some s ∧ t.kind ∉ S ∧ (∃ k, k ∈ S) ∧ (∀ k ∈ S, Continues s k) ∧
      ∀ us, read? none s (t :: us) = none := by
  unfold parseStrict at h
  cases run_ends none .initial (Cursor.ofText text) with
  | @breaks y ts here stop s' hb =>
    rw [hb.parse] at h
    cases h
    rw [ParseError.stage_attachPath, (Cursor.of_next_error hb.next).1] at hx
    cases hx
  | @refuses cause consumed ts here t after hr =>
    rw [hr.parse] at h
    cases h
    obtain ⟨s, hs, hstep⟩ := hr.step
    cases explains_step s t cause consumed hstep with
    | number => cases hx
    | @unwanted S ht hne hS =>
      refine ⟨S, ts, here, after, t, s, rfl, hr.reads, hr.next, hs, ht, hne, ?_, ?_⟩
      · intro k hk
        apply continues_of_shift
        intro u hu
        exact hS u (hu ▸ hk)
      · intro us
        exact read?_refuse hstep
  | @accepts e ts stop t after ha =>
    rw [ha.parse_strict] at h
    split at h <;> cases h
    rename_i ht
    obtain ⟨s, hs, hstep⟩ := ha.step
    refine ⟨{.endOfInput}, ts, stop, after, t, s, rfl, ha.reads, ha.next, hs, ?_, ⟨.endOfInput, by simp⟩, ?_, ?_⟩
    · rw [TokenSet.mem_singleton]
      exact ht
    · intro k hk
      rw [TokenSet.mem_singleton.mp hk]
      exact continues_endOfInput hstep
    · intro us
      rw [read?, hstep]
      exact if_neg ht

end Parser

open EL.Parser in
/-- **Syntax errors tell the truth.** A syntax error of the strict parser says that a token of some
    kinds was expected and that it got the token `t`. Then `t` stands where the error says, it is of
    none of these kinds, and there are some. With the text in front of `t`, a new line, and a text that
    begins with a token of one of these kinds, whichever it is, an expression can be written; for the
    end of input that text is empty. And nothing that is accepted begins with the tokens up to `t`. -/
theorem parseStrict_expected {text : String} {x : ParseError} (h : parseStrict text = .error x)
    (hx : x.stage = .syntactic) :
    ∃ (S : TokenSet) (t : Token) (ts : List Token) (here after : Cursor) (p q : String),
      x = .expected S t ∧
      (Cursor.ofText text).Reads ts here ∧ here.next = (.ok t, after) ∧
      text = p ++ q ∧ byteLength p.toList = t.start.offset ∧
      t.kind ∉ S ∧ (∃ k, k ∈ S) ∧
      (∀ k ∈ S, ∃ w u, (Cursor.ofText w).peek = .ok u ∧ u.kind = k ∧ u.start.offset = 0 ∧
        (k = .endOfInput → w = "") ∧ ∃ e, parseStrict (p ++ "\n" ++ w) = .ok e) ∧
      ∀ text' us u vs e, (Cursor.ofText text').tokens = .ok (us ++ u :: vs) →
        us.map Token.face = ts.map Token.face → u.face = t.face → parseStrict text' ≠ .ok e := by
  obtain ⟨S, ts, here, after, t, s, rfl, hts, hn, hs, ht, hne, hS, hnone⟩ := exists_diagnosis h hx
  obtain ⟨p, q, htext, hp, hcut⟩ := exists_cut hts hn
  refine ⟨S, t, ts, here, after, p, q, rfl, hts, hn, htext, hp, ht, hne, ?_, ?_⟩
  · intro k hk
    obtain ⟨w, u, hpeek, hu, hoffset, hend, hcontinues⟩ := hS k hk
    obtain ⟨position, htokens⟩ := hcut w
    obtain ⟨vs, e, hvs, he⟩ := hcontinues position
    refine ⟨w, u, hpeek, hu, hoffset, hend, e, parseStrict_eq_ok_iff.mpr ⟨ts ++ vs, ?_, ?_⟩⟩
    · rw [htokens, hvs]
      rfl
    · rw [read?_of_shifts? hs, he]
  · intro text' us u vs e htokens hus hu hparse
    obtain ⟨ws, hws, hread⟩ := parseStrict_eq_ok_iff.mp hparse
    obtain rfl := Except.ok.inj (htokens.symm.trans hws)
    -- The same faces would make up a tree here as well, and `t` does not let them.
    have hbare : (ts ++ t :: vs).map Token.bare = (us ++ u :: vs).map Token.bare := by
      rw [Token.map_bare_eq_iff]
      simp [hus, hu]
    obtain ⟨e', he'⟩ := exists_read?_of_bare hbare hread
    rw [read?_of_shifts? hs, hnone] at he'
    cases he'

theorem parseStrict_expected_parenthesis :
    parseStrict "(a" = .error (.expected {.closeParen} ⟨.endOfInput, "", ⟨2, ⟨1, 3⟩⟩⟩) ∧
      ∃ p q w e, "(a" = p ++ q ∧ byteLength p.toList = 2 ∧ parseStrict (p ++ "\n" ++ w) = .ok e := by
  have hreads : (Cursor.ofText "(a").Reads
      [⟨.openParen, "(", ⟨0, ⟨1, 1⟩⟩⟩, ⟨.name, "a", ⟨1, ⟨1, 2⟩⟩⟩] ⟨[], ⟨2, ⟨1, 3⟩⟩⟩ :=
    .cons rfl (by decide) (.cons rfl (by decide) (.nil _))
  have h : parseStrict "(a" =
      .error (.expected {.closeParen} ⟨.endOfInput, "", ⟨2, ⟨1, 3⟩⟩⟩) := by
    have hrefuses : Parser.Refuses none .initial (Cursor.ofText "(a") _ _ _ _ _ _ :=
      ⟨hreads, rfl, _, rfl, rfl⟩
    rw [parseStrict, hrefuses.parse]
    rfl
  obtain ⟨S, t, -, -, -, p, q, hx, -, -, htext, hp, -, -, hS, -⟩ := parseStrict_expected h rfl
  cases hx
  obtain ⟨w, -, -, -, -, -, e, he⟩ := hS .closeParen (by decide)
  exact ⟨h, p, q, w, e, htext, hp, he⟩

end EL
