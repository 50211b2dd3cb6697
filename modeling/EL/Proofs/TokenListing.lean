import EL.Command.Check
import EL.Proofs.Number.Literal
import EL.Proofs.Onward
import EL.Proofs.Refusals

/-!
# The listing of tokens and the parser

The command that lists tokens scans a text to its end. A parser scans as far as it must, one token
after the other, and it sees the same tokens. So **the two agree about errors as far as both of them
come** (`listTokens_parseStrict`). A text that cannot be scanned is not parsed either: the parser comes
to the place where scanning stops, or it has refused a token before. And what cannot be parsed for a
lexical reason cannot be scanned, with one exception. A number that is too large is a token like any
other to the listing, and only the parser asks for its value.
-/

set_option autoImplicit false

namespace EL

namespace Cursor

variable {c here after : Cursor} {ts : List Token} {t : Token} {x : ParseError}

/-- A text that cannot be scanned to its end cannot be scanned to it from behind a token either. -/
theorem Reads.tokens_error (h : c.Reads ts here) (hn : here.next = (.ok t, after))
    (hx : c.tokens = .error x) : t.kind ≠ .endOfInput ∧ after.tokens = .error x := by
  have hhere := h.tokens_error_iff.mp hx
  by_cases ht : t.kind = .endOfInput
  · rw [tokens_of_end hn ht] at hhere
    cases hhere
  · exact ⟨ht, (Cursor.tokens_error_iff hn ht).mp hhere⟩

/-- A token stands before every error that a scan behind it stops at. -/
theorem location_lt_of_tokens_error (hn : here.next = (.ok t, after)) (ht : t.kind ≠ .endOfInput)
    (hx : after.tokens = .error x) : t.location < x.location := by
  obtain ⟨us, stop, beyond, hus, herror⟩ := exists_reads_of_error after hx
  obtain ⟨hover, hlt⟩ := length_rest_of_next hn ht
  have honward : here.skipGap.Onward stop.skipGap :=
    (hover.trans hus.onward).trans (onward_skipGap stop)
  have hle : stop.skipGap.rest.length ≤ after.rest.length :=
    Nat.le_trans (length_rest_skipGap_le stop) hus.length_le
  have htoken : t.location = here.skipGap.location := congrArg Position.location (start_of_next hn)
  rw [htoken, (of_next_error herror).2.1]
  exact honward.location_lt (Nat.lt_of_le_of_lt hle hlt)

end Cursor

namespace Parser

/-- What the parser refuses for a lexical reason is a number that is too large. -/
theorem Refuses.infinite {s : State} {c here after : Cursor} {cause : Cause} {consumed : Bool}
    {ts : List Token} {t : Token} (h : Refuses none s c cause consumed ts here t after)
    (hstage : cause.stage = .lexical) :
    t.kind = .number ∧ Number.ofLiteral? t.text.toList = some (.infinite false) ∧
      cause = .malformedNumber t.text := by
  obtain ⟨s', -, hstep⟩ := h.step
  cases explains_step s' t cause consumed hstep with
  | unwanted => cases hstage
  | number ht hn =>
    refine ⟨ht, ?_, rfl⟩
    rcases Token.ofLiteral?_eq h.next ht with ⟨m, hm⟩ | hinfinite
    · exact absurd (fun _ => ⟨false, m, hm⟩) hn
    · exact hinfinite

end Parser

namespace Command

open EL.Parser

theorem listTokens_of_error {text : String} {x : ParseError}
    (h : (Cursor.ofText text).tokens = .error x) : listTokens text = .error (.parse x) := by
  rw [listTokens, h]

theorem listTokens_of_ok {text : String} {ts : List Token}
    (h : (Cursor.ofText text).tokens = .ok ts) : listTokens text = .ok (ts.map Token.listingLine) := by
  rw [listTokens, h]

/-- A text that cannot be scanned is refused where scanning stops, or at a token before. -/
theorem parseStrict_of_tokens_error {text : String} {x : ParseError}
    (h : (Cursor.ofText text).tokens = .error x) :
    ∃ y, parseStrict text = .error y ∧ (y = x ∨ y.location < x.location) := by
  unfold parseStrict
  cases run_ends none .initial (Cursor.ofText text) with
  | @refuses cause consumed ts here t after hr =>
    obtain ⟨ht, hx⟩ := hr.reads.tokens_error hr.next h
    rw [hr.parse]
    exact ⟨_, rfl, .inr (Cursor.location_lt_of_tokens_error hr.next ht hx)⟩
  | @breaks y ts here stop s' hb =>
    rw [hb.reads.tokens_of_error hb.next] at h
    cases h
    rw [hb.parse]
    exact ⟨_, rfl, .inl rfl⟩
  | @accepts e ts stop t after ha =>
    obtain ⟨ht, hx⟩ := ha.reads.tokens_error ha.next h
    rw [ha.parse_strict, if_neg ht]
    exact ⟨_, rfl, .inr (Cursor.location_lt_of_tokens_error ha.next ht hx)⟩

/-- A lexical error of the parser is one of the scan, or a number that is too large. -/
theorem tokens_of_parseStrict_lexical {text : String} {y : ParseError}
    (h : parseStrict text = .error y) (hstage : y.stage = .lexical) :
    (Cursor.ofText text).tokens = .error y ∨
      ∃ t ∈ (Cursor.ofText text).stream.tokens, t.kind = .number ∧
        Number.ofLiteral? t.text.toList = some (.infinite false) ∧
        y = ⟨.malformedNumber t.text, t.location, none⟩ := by
  unfold parseStrict at h
  cases run_ends none .initial (Cursor.ofText text) with
  | @refuses cause consumed ts here t after hr =>
    rw [hr.parse] at h
    cases h
    obtain ⟨ht, hinfinite, rfl⟩ := hr.infinite hstage
    obtain ⟨us, hus⟩ := hr.reads.exists_stream_tokens hr.next
    refine .inr ⟨t, ?_, ht, hinfinite, rfl⟩
    rw [hus]
    simp
  | @breaks x ts here stop s' hb =>
    rw [hb.parse] at h
    cases h
    exact .inl (hb.reads.tokens_of_error hb.next)
  | @accepts e ts stop t after ha =>
    -- What a strict parse misses behind an expression is the end of input, and that is syntax.
    rw [ha.parse_strict] at h
    split at h <;> cases h
    cases hstage

/-- **The listing of tokens and the strict parser agree about errors.** If the listing fails, the
    parser fails with the same error or with one at an earlier place. If the parser fails with a
    lexical error, the listing fails with the same one, or the error is about a number token of the
    listing whose value is infinite. If the parser succeeds, the listing does. -/
theorem listTokens_parseStrict (text : String) :
    (∀ f, listTokens text = .error f → ∃ x y, f = .parse x ∧ parseStrict text = .error y ∧
        (y = x ∨ y.location < x.location)) ∧
      (∀ y, parseStrict text = .error y → y.stage = .lexical →
        listTokens text = .error (.parse y) ∨
          ∃ t ∈ (Cursor.ofText text).stream.tokens, t.kind = .number ∧
            Number.ofLiteral? t.text.toList = some (.infinite false) ∧
            y = ⟨.malformedNumber t.text, t.location, none⟩ ∧
            ∀ lines, listTokens text = .ok lines → t.listingLine ∈ lines) ∧
      ∀ e, parseStrict text = .ok e → ∃ lines, listTokens text = .ok lines := by
  refine ⟨?_, ?_, ?_⟩
  · intro f h
    cases htokens : (Cursor.ofText text).tokens with
    | ok ts =>
      rw [listTokens_of_ok htokens] at h
      cases h
    | error x =>
      rw [listTokens_of_error htokens] at h
      cases h
      obtain ⟨y, hy, hplace⟩ := parseStrict_of_tokens_error htokens
      exact ⟨x, y, rfl, hy, hplace⟩
  · intro y h hstage
    rcases tokens_of_parseStrict_lexical h hstage with htokens | ⟨t, ht, hk, hinfinite, hy⟩
    · exact .inl (listTokens_of_error htokens)
    · refine .inr ⟨t, ht, hk, hinfinite, hy, ?_⟩
      intro lines hlines
      cases htokens : (Cursor.ofText text).tokens with
      | error x =>
        rw [listTokens_of_error htokens] at hlines
        cases hlines
      | ok ts =>
        rw [listTokens_of_ok htokens] at hlines
        cases hlines
        rw [(Cursor.stream_of_tokens htokens).1] at ht
        exact List.mem_map_of_mem ht
  · intro e h
    obtain ⟨ts, htokens, -⟩ := parseStrict_eq_ok_iff.mp h
    exact ⟨_, listTokens_of_ok htokens⟩

end Command

end EL
