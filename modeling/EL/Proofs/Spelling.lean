import EL.Proofs.Lexemes
import EL.Proofs.Places

/-!
# Which characters spell which tokens

A scan carries a place along, and tokens carry theirs. `Spells` leaves that out: the characters fall
into lexemes that make up these tokens, with spaces between them. It is put together from the front,
one lexeme at a time, and **what it says of a text is what a scan of the text finds**
(`Cursor.scans_of_spells`).
-/

set_option autoImplicit false

namespace EL

/-- The token, and nothing of where it stands. -/
def Token.bare (t : Token) : Token := t.relocate fun _ => .origin

/-- The tree, and nothing of where it stands. -/
def Expr.bare (e : Expr) : Expr := e.relocate fun _ => .origin

/-- The token that a lexeme makes up, wherever it stands. -/
def Lexeme.token (x : Lexeme) : Token := ⟨x.kind, String.ofList x.text, 0, .origin⟩

/-- Characters fall into lexemes that make up these tokens. Spaces may stand before a lexeme and at
    the end. -/
inductive Spells : List Char → List Token → Prop where
  | nil : Spells [] []
  | space {cs : List Char} {ts : List Token} (h : Spells cs ts) : Spells (' ' :: cs) ts
  | lexeme {c : Char} {r cs : List Char} {ts : List Token} {x : Lexeme} (hgap : gap (c :: r) = [])
      (hread : Lexeme.read c r = .ok x) (hx : c :: r = x.spelling ++ cs) (h : Spells cs ts) :
      Spells (c :: r) (x.token :: ts)

namespace Cursor

/-- A blank is passed like any other part of a gap. -/
theorem next_blank {c : Char} (hc : Text.isBlank c = true) (cs : List Char) (p : Position) :
    next ⟨c :: cs, p⟩ = next ⟨cs, p.advance [c]⟩ := by
  have hskip : skipGap ⟨c :: cs, p⟩ = skipGap ⟨cs, p.advance [c]⟩ := by
    simp only [skipGap, pass, gap_blank hc]
    rw [← List.singleton_append, Position.advance_append]
    rfl
  rw [next, hskip]
  rfl

theorem next_lexeme {c : Char} {r cs : List Char} {x : Lexeme} (hgap : gap (c :: r) = [])
    (hread : Lexeme.read c r = .ok x) (hx : c :: r = x.spelling ++ cs) (p : Position) :
    next ⟨c :: r, p⟩ =
      (.ok ⟨x.kind, String.ofList x.text, p⟩, ⟨cs, p.advance x.spelling⟩) := by
  rw [next, skipGap_of_gap hgap, readHere]
  simp only [hread, pass, hx, List.drop_left]

/-- **A scan finds the tokens that a text spells.** -/
theorem scans_of_spells {cs : List Char} {ts : List Token} (h : Spells cs ts) (p : Position) :
    ∃ us, Scans ⟨cs, p⟩ us ∧ us.map Token.bare = ts := by
  induction h generalizing p with
  | nil => exact ⟨[], ⟨⟨.endOfInput, "", p⟩, tokens_of_end rfl rfl, rfl⟩, rfl⟩
  | @space cs ts _ ih =>
    obtain ⟨us, ⟨stop, htokens, hstop⟩, hus⟩ := ih (p.advance [' '])
    exact ⟨us, ⟨stop, (tokens_congr (next_blank rfl cs p)).trans htokens, hstop⟩, hus⟩
  | @lexeme c r cs ts x hgap hread hx _ ih =>
    obtain ⟨us, ⟨stop, htokens, hstop⟩, hus⟩ := ih (p.advance x.spelling)
    refine ⟨⟨x.kind, String.ofList x.text, p⟩ :: us, ⟨stop, ?_, hstop⟩, ?_⟩
    · rw [tokens_of_token (next_lexeme hgap hread hx p) (Lexeme.kind_ne_endOfInput hread), htokens]
      rfl
    · rw [List.map_cons, hus]
      rfl

/-! ## Names in a scan -/

theorem isName_of_next {c after : Cursor} {t : Token} (h : c.next = (.ok t, after))
    (ht : t.kind = .name) : Lexeme.IsName t.text.toList := by
  unfold next readHere at h
  split at h
  · obtain ⟨rfl, -⟩ : _ = t ∧ _ := by simpa using h
    cases ht
  · split at h
    · rename_i x hx
      obtain ⟨rfl, -⟩ : _ = t ∧ _ := by simpa using h
      rw [String.toList_ofList]
      exact Lexeme.isName_of_read hx ht
    · cases h

/-- The names that a scan finds are names. -/
theorem isName_of_tokens (c : Cursor) : ∀ {ts : List Token}, c.tokens = .ok ts →
    ∀ t ∈ ts, t.kind = .name → Lexeme.IsName t.text.toList := by
  intro ts h
  match hn : c.next with
  | (.error x, _) =>
    rw [tokens_of_error hn] at h
    cases h
  | (.ok t, after) =>
    have hname := isName_of_next hn
    by_cases ht : t.kind = .endOfInput
    · rw [tokens_of_end hn ht] at h
      cases h
      exact List.forall_mem_singleton.mpr hname
    · rw [tokens_of_token hn ht] at h
      have hlt := length_rest_next_lt hn ht
      cases hafter : after.tokens with
      | error => simp [hafter, Except.map] at h
      | ok vs =>
        simp only [hafter, Except.map, Except.ok.injEq] at h
        subst h
        exact List.forall_mem_cons.mpr ⟨hname, isName_of_tokens after hafter⟩
termination_by c.rest.length

theorem isName_of_scans {c : Cursor} {ts : List Token} (h : c.Scans ts) :
    ∀ t ∈ ts, t.kind = .name → Lexeme.IsName t.text.toList := by
  obtain ⟨stop, htokens, -⟩ := h
  exact fun t ht => isName_of_tokens c htokens t (List.mem_append_left _ ht)

end Cursor

end EL
