import EL.Proofs.Lookahead
import EL.Proofs.Number.Plain
import Mathlib.Data.List.Basic

/-!
# What numbers look like

What the scanner takes for a number is said here without the scanner: what such a text consists of
(`IsNumber`), and what may stand directly behind it (`FollowsNumber`). **A number with something
behind it that may stand there is read to its end** (`Lexeme.read_number`), by whichever of the two
attempts finds it. Printed numbers are numbers of this form, and what the printer puts behind them
may stand there.
-/

set_option autoImplicit false

namespace EL

open Text (isBlank)

/-- A mark, digits, and perhaps a sign between them; or nothing. -/
inductive IsExponent : List Char → Prop where
  | absent : IsExponent []
  | marked {c : Char} {sign ds : List Char} (hc : c = 'e' ∨ c = 'E')
      (hsign : sign = [] ∨ sign = ['+'] ∨ sign = ['-']) (hds : ∀ d ∈ ds, d.isDigit)
      (hne : ds ≠ []) : IsExponent (c :: (sign ++ ds))

/-- Digits, or two runs of digits with a point between them, of which one may be empty; with an
    exponent or without one. -/
inductive IsNumber : List Char → Prop where
  | whole {w e : List Char} (hw : ∀ d ∈ w, d.isDigit) (hne : w ≠ []) (he : IsExponent e) :
      IsNumber (w ++ e)
  | pointed {w f e : List Char} (hw : ∀ d ∈ w, d.isDigit) (hf : ∀ d ∈ f, d.isDigit)
      (hne : w ++ f ≠ []) (he : IsExponent e) : IsNumber (w ++ '.' :: (f ++ e))

/-- What may stand directly behind a number. -/
inductive FollowsNumber : List Char → Prop where
  | endOfInput : FollowsNumber []
  | blank {c : Char} (hc : isBlank c = true) (r : List Char) : FollowsNumber (c :: r)
  | delimiter {c : Char}
      (hc : c ∈ ['(', ')', '{', '}', '[', ']', ',', ':', '+', '-', '*', '/', '%']) (r : List Char) :
      FollowsNumber (c :: r)
  | range (r : List Char) : FollowsNumber ('.' :: '.' :: r)

/-! ## What follows a number -/

theorem followsNumber_iff {s : List Char} :
    FollowsNumber s ↔ endsNumber s = true ∧ beginsWithPoint s = false := by
  constructor
  · intro h
    cases h with
    | endOfInput | range => exact ⟨rfl, rfl⟩
    | blank hc r => exact ⟨by simp [endsNumber, hc], beginsWithPoint_blank hc r⟩
    | @delimiter c hc r =>
      have hends : c ∈ numberDelimiters := List.mem_append_left ['.'] hc
      refine ⟨by simp [endsNumber, hends], Bool.eq_false_iff.mpr fun h => ?_⟩
      obtain ⟨s, hs, -⟩ := exists_of_beginsWithPoint h
      obtain ⟨rfl, -⟩ := List.cons.inj hs
      exact absurd hc (by decide)
  · rintro ⟨hends, hpoint⟩
    cases s with
    | nil => exact .endOfInput
    | cons c r =>
      rcases Bool.or_eq_true_iff.mp hends with hblank | hdelimiter
      · exact .blank hblank r
      · by_cases hc : c = '.'
        · -- The one delimiter that is not among the others is the first of two points.
          subst hc
          have hsecond : r.head? = some '.' := by simpa [beginsWithPoint] using hpoint
          obtain ⟨s, rfl⟩ := List.head?_eq_some_iff.mp hsecond
          exact .range s
        · refine .delimiter ?_ r
          simpa [numberDelimiters, hc] using hdelimiter

namespace FollowsNumber

variable {s : List Char} (h : FollowsNumber s)
include h

/-- What follows a number begins with nothing that could go on with it, and with nothing else that
    is neither blank nor a delimiter. -/
theorem of_cons {c : Char} {r : List Char} (hs : s = c :: r) :
    c.isAlpha = false ∧ c.isDigit = false ∧ c ∉ ['"', '\'', '<', '>', '=', '!'] ∧
      (c = '.' → r.head? = some '.') := by
  subst hs
  obtain ⟨hends, hpoint⟩ := followsNumber_iff.mp h
  have hrange : c = '.' → r.head? = some '.' := by
    rintro rfl
    simpa [beginsWithPoint] using hpoint
  have hdelimiters : numberDelimiters.all fun d =>
      d.isAlpha = false ∧ d.isDigit = false ∧ d ∉ ['"', '\'', '<', '>', '=', '!'] := by decide
  have hothers : ['"', '\'', '<', '>', '=', '!'].all fun d => isBlank d = false := by decide
  rcases Bool.or_eq_true_iff.mp hends with hblank | hdelimiter
  · have hname : Lexeme.continuesName c = false := by
      rw [Bool.eq_false_iff]
      intro hc
      rw [Lexeme.not_isBlank_of_continuesName hc] at hblank
      cases hblank
    obtain ⟨halphanum, -⟩ := Bool.or_eq_false_iff.mp hname
    obtain ⟨halpha, hdigit⟩ := Bool.or_eq_false_iff.mp halphanum
    refine ⟨halpha, hdigit, fun hmem => ?_, hrange⟩
    rw [of_decide_eq_true (List.all_eq_true.mp hothers c hmem)] at hblank
    cases hblank
  · have hc : c ∈ numberDelimiters := by simpa using hdelimiter
    obtain ⟨halpha, hdigit, hmem⟩ := of_decide_eq_true (List.all_eq_true.mp hdelimiters c hc)
    exact ⟨halpha, hdigit, hmem, hrange⟩

theorem isDigit_head? : ∀ c ∈ s.head?, c.isDigit = false := by
  intro c hc
  obtain ⟨r, rfl⟩ := List.head?_eq_some_iff.mp hc
  exact (h.of_cons rfl).2.1

end FollowsNumber

/-! ## What looks like a number -/

theorem digits_append {w s : List Char} (hw : ∀ d ∈ w, d.isDigit)
    (hs : ∀ d ∈ s.head?, d.isDigit = false) : digits (w ++ s) = w := by
  have hnone : s.takeWhile Char.isDigit = [] := by
    cases s with
    | nil => rfl
    | cons d s => exact List.takeWhile_cons_of_neg (by simp [hs d rfl])
  rw [digits, List.takeWhile_append_of_pos hw, hnone, List.append_nil]

theorem exponentSign_append_digits {sign ds : List Char}
    (hsign : sign = [] ∨ sign = ['+'] ∨ sign = ['-']) (hds : ∀ d ∈ ds, d.isDigit) (hne : ds ≠ []) :
    exponentSign (sign ++ ds) = sign := by
  obtain ⟨d, r, rfl⟩ := List.exists_cons_of_ne_nil hne
  have hd := hds d List.mem_cons_self
  rcases hsign with rfl | rfl | rfl
  · -- The first digit is not taken for a sign.
    have hp : d ≠ '+' := by
      rintro rfl
      exact absurd hd (by decide)
    have hm : d ≠ '-' := by
      rintro rfl
      exact absurd hd (by decide)
    simp [exponentSign, hp, hm]
  · rfl
  · rfl

namespace IsExponent

variable {e s : List Char} (he : IsExponent e)
include he

/-- An exponent is scanned up to its end. -/
theorem exponentPart?_append (hs : FollowsNumber s) : exponentPart? (e ++ s) = some e := by
  cases he with
  | absent => exact exponentPart?_of_endsNumber (followsNumber_iff.mp hs).1
  | @marked c sign ds hc hsign hds hne =>
    have hsign' : exponentSign ((sign ++ ds) ++ s) = sign := by
      rw [exponentSign_append (List.append_ne_nil_of_right_ne_nil sign hne),
        exponentSign_append_digits hsign hds hne]
    rw [List.cons_append, exponentPart?_cons, if_pos hc, hsign', List.append_assoc, List.drop_left,
      digits_append hds hs.isDigit_head?, if_neg hne]
    rfl

/-- Digits do not go on with an exponent, or with what follows a number. -/
theorem isDigit_head?_append (hs : FollowsNumber s) : ∀ c ∈ (e ++ s).head?, c.isDigit = false := by
  cases he with
  | absent => exact hs.isDigit_head?
  | marked hc =>
    intro c hhead
    obtain rfl := Option.some.inj hhead
    rcases hc with rfl | rfl <;> rfl

theorem beginsWithPoint_append (hs : FollowsNumber s) : beginsWithPoint (e ++ s) = false := by
  cases he with
  | absent => exact (followsNumber_iff.mp hs).2
  | marked hc => rcases hc with rfl | rfl <;> rfl

end IsExponent

section
variable {w f e s : List Char}

/-- Digits with an exponent behind them are a decimal. -/
theorem decimalSpelling?_exponent (hw : ∀ d ∈ w, d.isDigit) (hne : w ≠ []) (he : IsExponent e)
    (hnil : e ≠ []) (hs : FollowsNumber s) : decimalSpelling? (w ++ (e ++ s)) = some (w ++ e) := by
  have hwhole : digits (w ++ ([] ++ (e ++ s))) = w :=
    digits_append hw (he.isDigit_head?_append hs)
  have hpart : fraction ([] ++ (e ++ s)) = [] := fraction_eq_nil (he.beginsWithPoint_append hs)
  have hany : (w ++ []).any Char.isDigit = true := by
    obtain ⟨d, r, rfl⟩ := List.exists_cons_of_ne_nil hne
    simp [hw d List.mem_cons_self]
  exact decimalSpelling?_of_parts hwhole hpart (he.exponentPart?_append hs) hany hnil
    (followsNumber_iff.mp hs).1

/-- The point of a number is not the first of two, unless it ends the number. -/
theorem head?_ne_point (hf : ∀ d ∈ f, d.isDigit) (he : IsExponent e) (hs : FollowsNumber s)
    (hpoint : ¬ (f ++ e = [] ∧ ['.', '.'] <+: s)) : (f ++ (e ++ s)).head? ≠ some '.' := by
  intro hhead
  cases f with
  | cons d f =>
    obtain rfl := Option.some.inj hhead
    exact absurd (hf '.' List.mem_cons_self) (by decide)
  | nil =>
    cases he with
    | marked hc => rcases hc with rfl | rfl <;> cases hhead
    | absent =>
      obtain ⟨r, rfl⟩ := List.head?_eq_some_iff.mp hhead
      obtain ⟨t, rfl⟩ := List.head?_eq_some_iff.mp ((hs.of_cons rfl).2.2.2 rfl)
      exact hpoint ⟨rfl, t, rfl⟩

/-- Digits on either side of a point are a decimal. -/
theorem decimalSpelling?_point (hw : ∀ d ∈ w, d.isDigit) (hf : ∀ d ∈ f, d.isDigit)
    (hne : w ++ f ≠ []) (he : IsExponent e) (hs : FollowsNumber s)
    (hsecond : (f ++ (e ++ s)).head? ≠ some '.') :
    decimalSpelling? (w ++ ('.' :: f ++ (e ++ s))) = some (w ++ ('.' :: f ++ e)) := by
  have hwhole : digits (w ++ ('.' :: f ++ (e ++ s))) = w := by
    refine digits_append hw fun c hc => ?_
    obtain rfl := Option.some.inj hc
    rfl
  have hbegins : beginsWithPoint ('.' :: f ++ (e ++ s)) = true := by
    simpa [beginsWithPoint] using hsecond
  have hpart : fraction ('.' :: f ++ (e ++ s)) = '.' :: f := by
    rw [fraction, if_pos hbegins, List.cons_append, List.tail_cons,
      digits_append hf (he.isDigit_head?_append hs)]
  have hany : (w ++ '.' :: f).any Char.isDigit = true := by
    obtain ⟨d, hd⟩ := List.exists_mem_of_ne_nil _ hne
    rw [List.any_eq_true]
    rcases List.mem_append.mp hd with hd | hd
    · exact ⟨d, List.mem_append_left _ hd, hw d hd⟩
    · exact ⟨d, List.mem_append_right _ (List.mem_cons_of_mem _ hd), hf d hd⟩
  exact decimalSpelling?_of_parts hwhole hpart (he.exponentPart?_append hs) hany
    (List.cons_ne_nil _ _) (followsNumber_iff.mp hs).1

/-- **What looks like a number is found by one of the attempts**, unless it ends with a point and
    more points follow. -/
theorem number?_of_isNumber (hw : IsNumber w) (hs : FollowsNumber s)
    (hpoint : ¬ (w.getLast? = some '.' ∧ ['.', '.'] <+: s)) :
    Lexeme.number? (w ++ s) = some (.ok ⟨.number, w⟩) := by
  obtain ⟨hends, hbehind⟩ := followsNumber_iff.mp hs
  suffices decimalSpelling? (w ++ s) = some w ∨
      decimalSpelling? (w ++ s) = none ∧ integerSpelling? (w ++ s) = some w by
    rcases this with hdecimal | ⟨hnone, hinteger⟩
    · rw [Lexeme.number?, hdecimal]
      simp only [List.drop_left, hbehind]
      rfl
    · rw [Lexeme.number?, hnone, hinteger]
      rfl
  cases hw with
  | @whole w e hw hne he =>
    by_cases hnil : e = []
    · subst hnil
      rw [List.append_nil]
      have hdigits := digits_append hw hs.isDigit_head?
      exact .inr ⟨decimalSpelling?_of_endsNumber hdigits hends hbehind,
        integerSpelling?_append_iff.mpr ⟨hdigits, hne, hends⟩⟩
    · rw [List.append_assoc]
      exact .inl (decimalSpelling?_exponent hw hne he hnil hs)
  | @pointed w f e hw hf hne he =>
    have hlast : ¬ (f ++ e = [] ∧ ['.', '.'] <+: s) := by
      rintro ⟨hnil, hrange⟩
      exact hpoint ⟨by simp [hnil], hrange⟩
    have hdecimal := decimalSpelling?_point hw hf hne he hs (head?_ne_point hf he hs hlast)
    rw [List.append_assoc, List.cons_append, List.append_assoc]
    exact .inl hdecimal

/-- A number begins with a digit, or with a point and a digit. -/
theorem IsNumber.exists_cons (hw : IsNumber w) :
    ∃ c r, w = c :: r ∧ (c.isDigit ∨ c = '.' ∧ ∃ d t, r = d :: t ∧ d.isDigit) := by
  cases hw with
  | whole hw hne he =>
    obtain ⟨c, r, rfl⟩ := List.exists_cons_of_ne_nil hne
    exact ⟨c, _, rfl, .inl (hw c List.mem_cons_self)⟩
  | @pointed w f e hw hf hne he =>
    cases w with
    | cons c r => exact ⟨c, _, rfl, .inl (hw c List.mem_cons_self)⟩
    | nil =>
      obtain ⟨d, g, rfl⟩ := List.exists_cons_of_ne_nil hne
      exact ⟨'.', _, rfl, .inr ⟨rfl, d, _, rfl, hf d List.mem_cons_self⟩⟩

/-- A number is read to its end: it begins like no symbol or string. -/
theorem Lexeme.read_number {c : Char} {r : List Char} (hw : IsNumber (c :: r))
    (hs : FollowsNumber s) (hpoint : ¬ ((c :: r).getLast? = some '.' ∧ ['.', '.'] <+: s)) :
    read c (r ++ s) = .ok ⟨.number, c :: r⟩ := by
  have hnumber := number?_of_isNumber hw hs hpoint
  rw [List.cons_append] at hnumber
  obtain ⟨_, _, hcons, hc⟩ := hw.exists_cons
  obtain ⟨rfl, rfl⟩ := List.cons.inj hcons
  rcases hc with hc | ⟨rfl, d, t, rfl, hd⟩
  · have hname := continuesName_of_isDigit hc
    simp only [read, symbol?_eq_none (.inl hname), if_neg (not_quote_of_continuesName hname),
      hnumber]
  · have hsecond : (d :: t ++ s).head? ≠ some '.' := by
      intro hhead
      obtain rfl := Option.some.inj hhead
      exact absurd hd (by decide)
    simp only [read, symbol?_point hsecond, hnumber]
    rfl

end

/-! ## What is printed -/

theorem Numeral.exists_cons {w : List Char} (h : Numeral w) : ∃ c r, w = c :: r ∧ c.isDigit := by
  cases h with
  | whole hw hne =>
    obtain ⟨c, r, rfl⟩ := List.exists_cons_of_ne_nil hne
    exact ⟨c, r, rfl, hw c List.mem_cons_self⟩
  | pointed hw hne _ _ =>
    obtain ⟨c, r, rfl⟩ := List.exists_cons_of_ne_nil hne
    exact ⟨c, _, rfl, hw c List.mem_cons_self⟩

theorem Numeral.isNumber {w : List Char} (h : Numeral w) : IsNumber w := by
  cases h with
  | whole hw hne =>
    have hnumber := IsNumber.whole hw hne .absent
    rwa [List.append_nil] at hnumber
  | pointed hw hne hf _ =>
    have hnumber := IsNumber.pointed hw hf (List.append_ne_nil_of_left_ne_nil hne _) .absent
    rwa [List.append_nil] at hnumber

/-- A printed number does not end with its point. -/
theorem Numeral.getLast?_ne_point {w : List Char} (h : Numeral w) : w.getLast? ≠ some '.' := by
  have hdigits : ∀ {f : List Char}, (∀ c ∈ f, c.isDigit) → f.getLast? ≠ some '.' := by
    intro f hf hlast
    exact absurd (hf '.' (List.mem_of_getLast? hlast)) (by decide)
  cases h with
  | whole hw _ => exact hdigits hw
  | @pointed w f _ _ hf hfne =>
    obtain ⟨d, g, rfl⟩ := List.exists_cons_of_ne_nil hfne
    rw [List.getLast?_append_cons, List.getLast?_cons_cons]
    exact hdigits hf

theorem Stops.followsNumber {cs : List Char} (h : Stops cs) : FollowsNumber cs := by
  cases h with
  | nil => exact .endOfInput
  | space r => exact .blank rfl r
  | comma r | openBracket r | closeBracket r => exact .delimiter (by decide) r
  | range r => exact .range r

end EL
