import EL.Cursor
import EL.Text.Escape
import Mathlib.Data.List.TakeWhile

/-!
# What lexemes are

Two sides of one function. Whatever `Lexeme.read` returns is one of five things (`Lexeme.Found`),
and each of those is returned where a text begins with it, **as long as what follows cannot be a part
of it**. In printed text few characters can follow an operand, and none of them can (`Stops`).
-/

set_option autoImplicit false

namespace EL

open Text (isBlank)

namespace Lexeme

/-! ## What is read is one of these -/

/-- What a lexeme that was read can be. -/
inductive Found (c : Char) (r : List Char) : Lexeme → Prop where
  | symbol {s : Kind × List Char} (hs : s ∈ Kind.symbols) : Found c r ⟨s.1, s.2⟩
  | string {content : List Char} (hquote : c = '"' ∨ c = '\'')
      (h : stringContent? c r = some content) : Found c r ⟨.string, c :: content ++ [c]⟩
  | number {spelling : List Char} (h : number? (c :: r) = some (.ok ⟨.number, spelling⟩)) :
      Found c r ⟨.number, spelling⟩
  | keyword {s : Kind × List Char} (hs : s ∈ Kind.keywords) : Found c r ⟨s.1, s.2⟩
  | name (hc : beginsName c) (hk : keyword? (c :: r) = none) :
      Found c r ⟨.name, c :: r.takeWhile continuesName⟩

theorem number?_kind {cs : List Char} {x : Lexeme} (hx : number? cs = some (.ok x)) :
    x.kind = .number := by
  unfold number? at hx
  split at hx
  · split at hx <;> cases hx
    rfl
  · obtain ⟨w, -, hx⟩ := Option.map_eq_some_iff.mp hx
    cases hx
    rfl

theorem found_of_read {c : Char} {r : List Char} {x : Lexeme} (h : read c r = .ok x) :
    Found c r x := by
  rcases read_cases h with hx | ⟨-, ⟨hquote, content, hcontent, rfl⟩ | ⟨-, hx | ⟨-, hx | ⟨hk, hc, rfl⟩⟩⟩⟩
  · exact .symbol (symbol?_eq_some hx).1
  · exact .string hquote hcontent
  · obtain ⟨kind, spelling⟩ := x
    obtain rfl : kind = .number := number?_kind hx
    exact .number hx
  · exact .keyword (keyword?_eq_some hx).1
  · exact .name hc hk

/-- A name: letters, digits and underscores, with no digit and no keyword at the beginning. -/
def IsName (cs : List Char) : Prop :=
  ∃ c r, cs = c :: r ∧ beginsName c ∧ (∀ d ∈ r, continuesName d) ∧ keyword? cs = none

theorem keyword?_eq_none {cs : List Char} :
    keyword? cs = none ↔ ∀ s ∈ Kind.keywords, ¬ s.2 <+: cs := by
  simp only [keyword?, Option.map_eq_none_iff, List.find?_eq_none, List.isPrefixOf_iff_prefix]

/-- What is read as a name is one by itself, without the text after it. -/
theorem isName_of_read {c : Char} {r : List Char} {x : Lexeme} (h : read c r = .ok x)
    (hx : x.kind = .name) : IsName x.text := by
  have hsymbols : ∀ s ∈ Kind.symbols, s.1 ≠ .name := by decide
  have hkeywords : ∀ s ∈ Kind.keywords, s.1 ≠ .name := by decide
  cases found_of_read h with
  | symbol hs => exact absurd hx (hsymbols _ hs)
  | keyword hs => exact absurd hx (hkeywords _ hs)
  | string | number => cases hx
  | name hc hk =>
    refine ⟨c, _, rfl, hc, fun d hd => List.mem_takeWhile_imp hd, ?_⟩
    have hprefix : c :: r.takeWhile continuesName <+: c :: r :=
      List.cons_prefix_cons.mpr ⟨rfl, List.takeWhile_prefix _⟩
    rw [keyword?_eq_none] at hk ⊢
    exact fun s hs hp => hk s hs (List.IsPrefix.trans hp hprefix)

theorem kind_ne_endOfInput {c : Char} {r : List Char} {x : Lexeme} (h : read c r = .ok x) :
    x.kind ≠ .endOfInput := by
  have hsymbols : ∀ s ∈ Kind.symbols, s.1 ≠ .endOfInput := by decide
  have hkeywords : ∀ s ∈ Kind.keywords, s.1 ≠ .endOfInput := by decide
  cases found_of_read h with
  | symbol hs => exact hsymbols _ hs
  | keyword hs => exact hkeywords _ hs
  | string | number | name => exact nofun

end Lexeme

/-! ## What is printed is read -/

/-- What can follow a printed operand. -/
inductive Stops : List Char → Prop where
  | nil : Stops []
  | space (r : List Char) : Stops (' ' :: r)
  | comma (r : List Char) : Stops (',' :: r)
  | openBracket (r : List Char) : Stops ('[' :: r)
  | closeBracket (r : List Char) : Stops (']' :: r)
  | range (r : List Char) : Stops ('.' :: '.' :: r)

/-- A text with which no name goes on. -/
def EndsName (cs : List Char) : Prop := cs.takeWhile Lexeme.continuesName = []

namespace EndsName

variable {cs : List Char} (h : EndsName cs)
include h

theorem takeWhile_append {w : List Char} (hw : ∀ c ∈ w, Lexeme.continuesName c) :
    (w ++ cs).takeWhile Lexeme.continuesName = w := by
  rw [List.takeWhile_append_of_pos hw, show cs.takeWhile _ = [] from h, List.append_nil]

theorem head {c : Char} {r : List Char} (hcs : cs = c :: r) : Lexeme.continuesName c = false := by
  subst hcs
  rw [Bool.eq_false_iff]
  intro hc
  have hne : c :: r.takeWhile Lexeme.continuesName = [] := by
    rw [← List.takeWhile_cons_of_pos hc]
    exact h
  cases hne

end EndsName

theorem Stops.endsName {cs : List Char} (h : Stops cs) : EndsName cs := by
  cases h <;> rfl

namespace Lexeme

theorem isAlpha_iff {c : Char} : c.isAlpha ↔
    ('A'.toNat ≤ c.toNat ∧ c.toNat ≤ 'Z'.toNat) ∨ ('a'.toNat ≤ c.toNat ∧ c.toNat ≤ 'z'.toNat) := by
  show (decide (c.val ≥ 'A'.val ∧ c.val ≤ 'Z'.val) ||
    (decide (c.val ≥ 'a'.val) && decide (c.val ≤ 'z'.val))) = true ↔ _
  rw [Bool.or_eq_true, Bool.and_eq_true, decide_eq_true_iff, decide_eq_true_iff, decide_eq_true_iff]
  rfl

theorem continuesName_of_isDigit {c : Char} (h : c.isDigit) : continuesName c := by
  simp [continuesName, Char.isAlphanum, h]

theorem not_quote_of_continuesName {c : Char} (h : continuesName c) : ¬ (c = '"' ∨ c = '\'') := by
  rintro (rfl | rfl) <;> exact absurd h (by decide)

theorem code_of_continuesName {c : Char} (h : continuesName c) : 47 < c.toNat ∧ c.toNat < 123 := by
  simp only [continuesName, Char.isAlphanum, Bool.or_eq_true, decide_eq_true_eq, isAlpha_iff,
    Char.isDigit_iff_toNat] at h
  rcases h with ((⟨hlow, hhigh⟩ | ⟨hlow, hhigh⟩) | ⟨hlow, hhigh⟩) | rfl
  case inr => decide
  all_goals exact ⟨Nat.lt_of_lt_of_le (by decide) hlow, Nat.lt_of_le_of_lt hhigh (by decide)⟩

theorem not_isBlank_of_continuesName {c : Char} (h : continuesName c) : isBlank c = false := by
  obtain ⟨hlow, hhigh⟩ := code_of_continuesName h
  simp only [isBlank, Text.blankRanges, List.any_cons, List.any_nil]
  simp
  omega

theorem gap_of_continuesName {c : Char} (h : continuesName c) (r : List Char) :
    gap (c :: r) = [] := by
  have hblank : isBlank c = false := not_isBlank_of_continuesName h
  have hslash : c ≠ '/' := by rintro rfl; exact absurd h (by decide)
  simp [gap, gapFrom, hblank, hslash]

/-- No symbol begins with a letter, a digit or a quote. -/
theorem symbol?_eq_none {c : Char} (h : continuesName c ∨ c = '"' ∨ c = '\'') (r : List Char) :
    symbol? (c :: r) = none := by
  have hheads : ∀ s ∈ Kind.symbols,
      s.2.head?.any fun d => continuesName d = false ∧ ¬ (d = '"' ∨ d = '\'') := by
    decide
  rw [symbol?, Option.map_eq_none_iff, List.find?_eq_none]
  intro s hs hp
  have hhead := hheads s hs
  obtain ⟨u, hu⟩ := List.isPrefixOf_iff_prefix.mp hp
  cases hspelling : s.2 with
  | nil =>
    rw [hspelling] at hhead
    cases hhead
  | cons d v =>
    rw [hspelling] at hhead hu
    obtain ⟨rfl, -⟩ := List.cons.inj hu
    obtain ⟨hname, hquote⟩ := of_decide_eq_true hhead
    rcases h with h | h
    · exact absurd h (by rw [hname]; decide)
    · exact hquote h

/-! ### Signs -/

theorem symbol?_minus {c : Char} (hc : c ≠ '>') (r : List Char) :
    symbol? ('-' :: c :: r) = some ⟨.minus, ['-']⟩ := by
  have h : ('>' == c) = false := beq_eq_false_iff_ne.mpr hc.symm
  simp [symbol?, Kind.symbols, Kind.all, Kind.spelling?, List.find?, List.isPrefixOf, h]

theorem symbol?_exclamation {c : Char} (hc : c ≠ '=') (r : List Char) :
    symbol? ('!' :: c :: r) = some ⟨.exclamation, ['!']⟩ := by
  have h : ('=' == c) = false := beq_eq_false_iff_ne.mpr hc.symm
  simp [symbol?, Kind.symbols, Kind.all, Kind.spelling?, List.find?, List.isPrefixOf, h]

/-! ### Names -/

/-- A keyword that a name does not begin with is not made up by what follows the name. -/
theorem keyword?_append {w cs : List Char} (hw : keyword? w = none) (h : EndsName cs) :
    keyword? (w ++ cs) = none := by
  have hletters : ∀ s ∈ Kind.keywords, s.2.all continuesName := by decide
  rw [keyword?_eq_none] at hw ⊢
  rintro s hs ⟨u, hu⟩
  rcases List.append_eq_append_iff.mp hu with ⟨v, rfl, -⟩ | ⟨v, hv, hcs⟩
  · exact hw s hs ⟨v, rfl⟩
  · cases v with
    | nil => exact hw s hs ⟨[], by rw [hv, List.append_nil, List.append_nil]⟩
    | cons d v =>
      have hd : continuesName d := List.all_eq_true.mp (hletters s hs) d (by rw [hv]; simp)
      rw [h.head hcs] at hd
      cases hd

theorem continuesName_of_beginsName {c : Char} (h : beginsName c) : continuesName c := by
  simp only [beginsName, continuesName, Char.isAlphanum, Bool.or_eq_true] at h ⊢
  exact h.imp .inl id

theorem not_isDigit_of_beginsName {c : Char} (h : beginsName c) : c.isDigit = false := by
  rw [Bool.eq_false_iff]
  intro hd
  simp only [beginsName, Bool.or_eq_true, decide_eq_true_eq, isAlpha_iff,
    Char.isDigit_iff_toNat] at h hd
  rcases h with (h | h) | rfl
  case inr => exact absurd hd.2 (by decide)
  all_goals exact absurd (Nat.le_trans h.1 hd.2) (by decide)

theorem number?_eq_none {c : Char} (hc : beginsName c) (r : List Char) :
    number? (c :: r) = none := by
  have hdigit : c.isDigit = false := not_isDigit_of_beginsName hc
  have hpoint : EL.beginsWithPoint (c :: r) = false := by
    unfold EL.beginsWithPoint
    split
    · rename_i h
      obtain ⟨rfl, -⟩ := List.cons.inj h
      exact absurd hc (by decide)
    · rfl
  simp [number?, decimalSpelling?, integerSpelling?, digits, fraction, hdigit, hpoint]

theorem read_name {c : Char} {r cs : List Char} (hc : beginsName c) (hr : ∀ d ∈ r, continuesName d)
    (hk : keyword? (c :: r) = none) (h : EndsName cs) : read c (r ++ cs) = .ok ⟨.name, c :: r⟩ := by
  have hc' := continuesName_of_beginsName hc
  have hkeyword := keyword?_append hk h
  rw [List.cons_append] at hkeyword
  simp only [read, symbol?_eq_none (.inl hc'), if_neg (not_quote_of_continuesName hc'),
    number?_eq_none hc, hkeyword, if_pos hc, h.takeWhile_append hr]

/-! ### Strings -/

theorem stringContent?_cons {quote c : Char} (hc : c ≠ '\\') (r : List Char) :
    stringContent? quote (c :: r) =
      if c = quote then some [] else (stringContent? quote r).map (c :: ·) := by
  cases r <;> simp [stringContent?, hc]

theorem stringContent?_escape (s cs : List Char) :
    stringContent? '"' (Text.escape s ++ '"' :: cs) = some (Text.escape s) := by
  induction s with
  | nil => rfl
  | cons c r ih =>
    by_cases hc : Text.isEscapable c = true
    · simp [Text.escape, hc, stringContent?, ih]
    · have hb : c ≠ '\\' := by rintro rfl; exact hc rfl
      have hq : c ≠ '"' := by rintro rfl; exact hc rfl
      rw [Text.escape, if_neg hc, List.cons_append, stringContent?_cons hb, if_neg hq, ih]
      rfl

/-- Between quotes there is a string. -/
theorem read_quoted {quote : Char} {content r : List Char} (hquote : quote = '"' ∨ quote = '\'')
    (h : stringContent? quote r = some content) :
    read quote r = .ok ⟨.string, quote :: content ++ [quote]⟩ := by
  simp only [read, symbol?_eq_none (.inr hquote), if_pos hquote, h]

theorem read_string (s cs : List Char) :
    read '"' (Text.escape s ++ '"' :: cs) = .ok ⟨.string, '"' :: Text.escape s ++ ['"']⟩ :=
  read_quoted (.inl rfl) (stringContent?_escape s cs)

end Lexeme

end EL
