import EL.Proofs.Lexemes

/-!
# How far a lexeme looks ahead

A lexeme is read with all that follows it in view, but of that it looks at two characters at most.
So **the text after a lexeme can be replaced** (`Lexeme.read_replace`): by nothing, by what it was
with another line behind it, or by any text that shows nothing new before its first blank.

There is one exception. A whole number takes a single point after it for a sign that the number has
ended, and with other text behind the point it might have been a decimal. No harm comes of it: where
a point follows a number, nothing can be read at all (`Lexeme.read_point`).
-/

set_option autoImplicit false

namespace EL

open Text (isBlank)

/-! ## Points -/

theorem exists_of_beginsWithPoint {cs : List Char} (h : beginsWithPoint cs = true) :
    ∃ r, cs = '.' :: r ∧ r.head? ≠ some '.' := by
  unfold beginsWithPoint at h
  split at h
  · exact ⟨_, rfl, bne_iff_ne.mp h⟩
  · cases h

theorem beginsWithPoint_blank {b : Char} (hb : isBlank b = true) (r : List Char) :
    beginsWithPoint (b :: r) = false := by
  rw [Bool.eq_false_iff]
  intro h
  obtain ⟨s, hs, -⟩ := exists_of_beginsWithPoint h
  obtain ⟨rfl, -⟩ := List.cons.inj hs
  cases hb

/-! ## The sign of an exponent -/

/-- The sign that the digits of an exponent may have in front of them. -/
def exponentSign : List Char → List Char
  | '+' :: _ => ['+']
  | '-' :: _ => ['-']
  | _ => []

theorem exponentPart?_cons (c : Char) (r : List Char) : exponentPart? (c :: r) =
    if c = 'e' ∨ c = 'E' then
      if digits (r.drop (exponentSign r).length) = [] then none
      else some (c :: exponentSign r ++ digits (r.drop (exponentSign r).length))
    else some [] := by
  unfold exponentSign
  rfl

theorem exponentSign_prefix (r : List Char) : ∃ s, exponentSign r ++ s = r := by
  unfold exponentSign
  split <;> exact ⟨_, rfl⟩

theorem exponentSign_append {w : List Char} (hw : w ≠ []) (cs : List Char) :
    exponentSign (w ++ cs) = exponentSign w := by
  obtain ⟨c, r, rfl⟩ := List.exists_cons_of_ne_nil hw
  by_cases hp : c = '+'
  · subst hp
    rfl
  · by_cases hm : c = '-'
    · subst hm
      rfl
    · simp [exponentSign, hp, hm]

/-! ## Texts in the place of others -/

/-- Up to its first blank, the second text begins with nothing that the first does not. -/
def MayReplace (cs cs' : List Char) : Prop :=
  ∀ w : List Char, (∀ c ∈ w, isBlank c = false) → w <+: cs' → w <+: cs

namespace MayReplace

variable {cs cs' w : List Char} {c : Char} {r : List Char}

theorem nil (cs : List Char) : MayReplace cs [] := by
  intro w _ hw
  rw [List.prefix_nil.mp hw]
  exact List.nil_prefix

/-- A blank shows nothing. -/
theorem blank (cs : List Char) {b : Char} (hb : isBlank b = true) (r : List Char) :
    MayReplace cs (b :: r) := by
  intro w hw hp
  cases w with
  | nil => exact List.nil_prefix
  | cons d v =>
    obtain ⟨rfl, -⟩ := List.cons_prefix_cons.mp hp
    have hd : isBlank d = false := hw d List.mem_cons_self
    rw [hb] at hd
    cases hd

/-- A new line shows nothing before its line feed. -/
theorem line (cs r : List Char) : MayReplace cs ('\n' :: r) := blank cs rfl r

theorem append (h : MayReplace cs cs') (w : List Char) : MayReplace (w ++ cs) (w ++ cs') := by
  intro u hu hp
  obtain ⟨v, hv⟩ := hp
  rcases List.append_eq_append_iff.mp hv with ⟨x, rfl, -⟩ | ⟨x, rfl, hx⟩
  · rw [List.append_assoc]
    exact List.prefix_append u _
  · have hx' : x <+: cs := h x (fun d hd => hu d (List.mem_append_right w hd)) ⟨v, hx.symm⟩
    exact (List.prefix_append_right_inj w).mpr hx'

theorem newLine (cs r : List Char) : MayReplace cs (cs ++ '\n' :: r) := by
  have h := (line [] r).append cs
  rwa [List.append_nil] at h

theorem head (h : MayReplace cs (c :: r)) (hc : isBlank c = false) : ∃ r', cs = c :: r' := by
  obtain ⟨r', hr'⟩ := h [c] (by simpa using hc) ⟨r, rfl⟩
  exact ⟨r', hr'.symm⟩

theorem head? (h : MayReplace cs cs') (hc : isBlank c = false) (hcs : cs'.head? = some c) :
    cs.head? = some c := by
  obtain ⟨r, rfl⟩ := List.head?_eq_some_iff.mp hcs
  obtain ⟨r', rfl⟩ := h.head hc
  rfl

/-! ### What is taken from the front of a text -/

theorem takeWhile (h : MayReplace cs cs') {p : Char → Bool}
    (hp : ∀ c, p c = true → isBlank c = false)
    (hw : (w ++ cs).takeWhile p = w) : (w ++ cs').takeWhile p = w := by
  have hall : ∀ c ∈ w, p c = true := by
    intro c hc
    rw [← hw] at hc
    exact List.mem_takeWhile_imp hc
  rw [List.takeWhile_append_of_pos hall] at hw ⊢
  have hstop : cs'.takeWhile p = [] := by
    cases cs' with
    | nil => rfl
    | cons d s =>
      apply List.takeWhile_cons_of_neg
      intro hd
      obtain ⟨s', rfl⟩ := h.head (hp d hd)
      rw [List.takeWhile_cons_of_pos hd] at hw
      simp at hw
  rw [hstop, List.append_nil]

theorem digits (h : MayReplace cs cs') (hw : digits (w ++ cs) = w) : digits (w ++ cs') = w :=
  h.takeWhile
    (fun _ hc => Lexeme.not_isBlank_of_continuesName (Lexeme.continuesName_of_isDigit hc)) hw

theorem endsNumber (h : MayReplace cs cs') (hcs : endsNumber cs = true) :
    endsNumber cs' = true := by
  cases cs' with
  | nil => rfl
  | cons d s =>
    cases hd : isBlank d with
    | true => simp [EL.endsNumber, hd]
    | false =>
      obtain ⟨s', rfl⟩ := h.head hd
      exact hcs

theorem exponentPart? (h : MayReplace cs cs') (hw : exponentPart? (w ++ cs) = some w) :
    exponentPart? (w ++ cs') = some w := by
  cases w with
  | nil =>
    cases cs' with
    | nil => rfl
    | cons d s =>
      rw [List.nil_append, exponentPart?_cons]
      by_cases he : d = 'e' ∨ d = 'E'
      · have hd : isBlank d = false := by rcases he with rfl | rfl <;> rfl
        obtain ⟨s', rfl⟩ := h.head hd
        -- A mark is taken or it spoils the number.
        rw [List.nil_append, exponentPart?_cons, if_pos he] at hw
        split at hw <;> cases hw
      · exact if_neg he
  | cons d w =>
    rw [List.cons_append, exponentPart?_cons] at hw ⊢
    by_cases he : d = 'e' ∨ d = 'E'
    · rw [if_pos he] at hw ⊢
      split at hw
      · cases hw
      · rename_i hpower
        have hne : w ≠ [] := by
          rintro rfl
          simp at hw
          exact hpower hw.2
        obtain ⟨ds, hds⟩ := exponentSign_prefix w
        simp only [exponentSign_append hne] at hw hpower ⊢
        generalize exponentSign w = sign at *
        subst hds
        simp only [List.append_assoc, List.drop_left] at hw hpower ⊢
        have hdigits : EL.digits (ds ++ cs) = ds := by simpa using hw
        rw [hdigits] at hpower
        rw [h.digits hdigits, if_neg hpower]
        rfl
    · rw [if_neg he] at hw
      cases hw

theorem beginsWithPoint (h : MayReplace cs cs') (hne : w ≠ [])
    (hw : beginsWithPoint (w ++ cs) = true) : beginsWithPoint (w ++ cs') = true := by
  obtain ⟨s, hs, hdot⟩ := exists_of_beginsWithPoint hw
  obtain ⟨c, r, rfl⟩ := List.exists_cons_of_ne_nil hne
  obtain ⟨rfl, rfl⟩ := List.cons.inj hs
  simp only [List.cons_append, EL.beginsWithPoint, bne_iff_ne, ne_eq]
  exact fun hnew => hdot ((h.append r).head? (by decide) hnew)

theorem fraction (h : MayReplace cs cs') (hp : EL.beginsWithPoint (w ++ cs') = true → w ≠ [])
    (hw : fraction (w ++ cs) = w) : fraction (w ++ cs') = w := by
  unfold EL.fraction at hw ⊢
  by_cases hb : EL.beginsWithPoint (w ++ cs) = true
  · rw [if_pos hb] at hw
    obtain ⟨r, rfl⟩ : ∃ r, w = '.' :: r := ⟨_, hw.symm⟩
    rw [if_pos (h.beginsWithPoint (List.cons_ne_nil _ _) hb)]
    simp only [List.cons_append, List.tail_cons, List.cons.injEq, true_and] at hw ⊢
    exact h.digits hw
  · rw [if_neg hb] at hw
    subst hw
    rw [if_neg fun hb' => hp hb' rfl]

end MayReplace

/-! ## Numbers -/

section
variable {cs cs' w whole part power : List Char}

theorem fraction_prefix (cs : List Char) : ∃ rest, cs = fraction cs ++ rest := by
  unfold fraction
  by_cases hp : beginsWithPoint cs = true
  · rw [if_pos hp]
    obtain ⟨r, rfl, -⟩ := exists_of_beginsWithPoint hp
    exact ⟨r.dropWhile Char.isDigit, by simp [digits, List.takeWhile_append_dropWhile]⟩
  · rw [if_neg hp]
    exact ⟨cs, rfl⟩

theorem exponentPart?_prefix (h : exponentPart? cs = some power) : ∃ rest, cs = power ++ rest := by
  cases cs with
  | nil =>
    cases h
    exact ⟨[], rfl⟩
  | cons c r =>
    rw [exponentPart?_cons] at h
    split at h
    · split at h <;> cases h
      obtain ⟨s, hs⟩ := exponentSign_prefix r
      generalize exponentSign r = sign at hs ⊢
      subst hs
      exact ⟨s.dropWhile Char.isDigit, by simp [digits, List.takeWhile_append_dropWhile]⟩
    · cases h
      exact ⟨c :: r, rfl⟩

theorem exponentPart?_mark {c : Char} {r rest : List Char}
    (h : exponentPart? (c :: r ++ rest) = some (c :: r)) : c = 'e' ∨ c = 'E' := by
  rw [List.cons_append, exponentPart?_cons] at h
  split at h
  · assumption
  · cases h

/-- What comes after the digits decides whether a number has a fraction or an exponent. -/
theorem decimalSpelling?_append (h : digits (whole ++ cs) = whole) :
    decimalSpelling? (whole ++ cs) =
      if (whole ++ fraction cs).any Char.isDigit then
        match exponentPart? (cs.drop (fraction cs).length) with
        | none => none
        | some power =>
          if fraction cs ++ power ≠ [] ∧ endsNumber (cs.drop (fraction cs ++ power).length) = true
          then some (whole ++ (fraction cs ++ power)) else none
      else none := by
  have hdrop : ∀ s : List Char, (whole ++ cs).drop (whole ++ s).length = cs.drop s.length := by
    intro s
    rw [List.length_append, List.drop_append]
    simp
  simp only [decimalSpelling?, h, List.drop_left, hdrop]
  split
  · cases exponentPart? (cs.drop (fraction cs).length) with
    | none => rfl
    | some power => simp [List.append_assoc]
  · rfl

/-- A decimal falls into a whole part, a fraction and an exponent. -/
theorem decimalSpelling?_eq_some (h : decimalSpelling? cs = some w) :
    ∃ whole part power rest, cs = whole ++ (part ++ (power ++ rest)) ∧
      w = whole ++ (part ++ power) ∧ digits cs = whole ∧ fraction (part ++ (power ++ rest)) = part ∧
      exponentPart? (power ++ rest) = some power ∧ (whole ++ part).any Char.isDigit = true ∧
      part ++ power ≠ [] ∧ endsNumber rest = true := by
  obtain ⟨X, hX⟩ : ∃ X, cs = digits cs ++ X := ⟨_, List.takeWhile_append_dropWhile.symm⟩
  have hwhole : digits (digits cs ++ X) = digits cs := by rw [← hX]
  generalize digits cs = whole at hX hwhole ⊢
  subst hX
  rw [decimalSpelling?_append hwhole] at h
  split at h
  case isFalse => cases h
  rename_i hany
  obtain ⟨Y, hY⟩ := fraction_prefix X
  have hpart : fraction (fraction X ++ Y) = fraction X := by rw [← hY]
  generalize fraction X = part at hY hpart hany h
  subst hY
  rw [List.drop_left] at h
  split at h
  · cases h
  · rename_i power hpower
    obtain ⟨rest, rfl⟩ := exponentPart?_prefix hpower
    rw [← List.append_assoc, List.drop_left] at h
    split at h <;> cases h
    rename_i hend
    exact ⟨whole, part, power, rest, rfl, rfl, rfl, hpart, hpower, hany, hend⟩

/-- What falls into such parts is a decimal. -/
theorem decimalSpelling?_of_parts (hwhole : digits (whole ++ (part ++ (power ++ cs))) = whole)
    (hpart : fraction (part ++ (power ++ cs)) = part)
    (hpower : exponentPart? (power ++ cs) = some power)
    (hany : (whole ++ part).any Char.isDigit = true) (hne : part ++ power ≠ [])
    (hend : endsNumber cs = true) :
    decimalSpelling? (whole ++ (part ++ (power ++ cs))) = some (whole ++ (part ++ power)) := by
  rw [decimalSpelling?_append hwhole, hpart, if_pos hany, List.drop_left, hpower]
  dsimp only
  rw [← List.append_assoc part power cs, List.drop_left, if_pos ⟨hne, hend⟩]

theorem MayReplace.decimalSpelling? (h : MayReplace cs cs')
    (hp : EL.beginsWithPoint cs' = false) (hw : decimalSpelling? (w ++ cs) = some w) :
    decimalSpelling? (w ++ cs') = some w := by
  obtain ⟨whole, part, power, rest, hcs, rfl, hwhole, hpart, hpower, hany, hne, hend⟩ :=
    decimalSpelling?_eq_some hw
  obtain rfl : cs = rest := by simpa using hcs
  have htail : MayReplace (part ++ (power ++ cs)) (part ++ (power ++ cs')) :=
    (h.append power).append part
  have hwhole' : EL.digits (whole ++ (part ++ (power ++ cs'))) = whole :=
    htail.digits (by rwa [hcs] at hwhole)
  have hpart' : EL.fraction (part ++ (power ++ cs')) = part := by
    refine (h.append power).fraction (fun hb => ?_) hpart
    rintro rfl
    cases power with
    | nil => exact absurd hb (by simp [hp])
    | cons c r =>
      -- A mark is no point.
      rcases exponentPart?_mark hpower with rfl | rfl <;> cases hb
  have hpower' : EL.exponentPart? (power ++ cs') = some power := h.exponentPart? hpower
  rw [List.append_assoc, List.append_assoc]
  exact decimalSpelling?_of_parts hwhole' hpart' hpower' hany hne (h.endsNumber hend)

/-! ### Whole numbers -/

theorem exponentPart?_of_endsNumber (h : endsNumber cs = true) : exponentPart? cs = some [] := by
  cases cs with
  | nil => rfl
  | cons c r =>
    rw [exponentPart?_cons, if_neg]
    rintro (rfl | rfl) <;> cases h

theorem fraction_eq_nil (h : beginsWithPoint cs = false) : fraction cs = [] := by
  rw [fraction, if_neg (by rw [h]; decide)]

theorem integerSpelling?_append_iff :
    integerSpelling? (w ++ cs) = some w ↔
      digits (w ++ cs) = w ∧ w ≠ [] ∧ endsNumber cs = true := by
  unfold integerSpelling?
  constructor
  · intro h
    simp only at h
    split at h
    · rename_i hw
      have hdigits := Option.some.inj h
      rw [hdigits, List.drop_left] at hw
      exact ⟨hdigits, hw⟩
    · cases h
  · rintro ⟨hdigits, hw⟩
    simp only [hdigits, List.drop_left]
    rw [if_pos hw]

/-- Digits that can end, and do not go on with a point, are no decimal. -/
theorem decimalSpelling?_of_endsNumber (hw : digits (w ++ cs) = w) (hend : endsNumber cs = true)
    (hp : beginsWithPoint cs = false) : decimalSpelling? (w ++ cs) = none := by
  rw [decimalSpelling?_append hw, fraction_eq_nil hp]
  simp [exponentPart?_of_endsNumber hend]

end

namespace Lexeme

section
variable {cs cs' w : List Char} {x : Lexeme}

/-- A number is read as far as its own spelling goes, whatever follows that can follow it. -/
theorem number?_replace (h : MayReplace cs cs') (hp : beginsWithPoint cs' = false)
    (hx : number? (x.spelling ++ cs) = some (.ok x)) :
    number? (x.spelling ++ cs') = some (.ok x) := by
  unfold number? at hx ⊢
  split at hx
  · rename_i w hw
    split at hx <;> cases hx
    rename_i hpoint
    rw [h.decimalSpelling? hp hw]
    simp only [List.drop_left, hp]
    rfl
  · rename_i hnone
    obtain ⟨w, hw, hx⟩ := Option.map_eq_some_iff.mp hx
    cases hx
    obtain ⟨hdigits, hne, hend⟩ := integerSpelling?_append_iff.mp hw
    have hdigits' := h.digits hdigits
    have hend' := h.endsNumber hend
    rw [decimalSpelling?_of_endsNumber hdigits' hend' hp,
      integerSpelling?_append_iff.mpr ⟨hdigits', hne, hend'⟩]
    rfl

/-- A single point is no symbol. -/
theorem symbol?_point {r : List Char} (hr : r.head? ≠ some '.') : symbol? ('.' :: r) = none := by
  cases r with
  | nil => rfl
  | cons d s =>
    have hd : ('.' == d) = false := beq_eq_false_iff_ne.mpr fun heq => hr (by simp [← heq])
    simp [symbol?, Kind.symbols, Kind.all, Kind.spelling?, List.find?, List.isPrefixOf, hd]

/-- **Where a point follows a number, nothing can be read.** A decimal does not end there, and after
    a whole number the text goes on as it would in a decimal, which it is not. -/
theorem read_point {r : List Char} (hx : number? (x.spelling ++ '.' :: r) = some (.ok x))
    (hr : beginsWithPoint ('.' :: r) = true) :
    read '.' r = .error ⟨.unexpectedCharacter '.', []⟩ := by
  have hsymbol : symbol? ('.' :: r) = none :=
    symbol?_point (by simpa [beginsWithPoint] using hr)
  have hkeyword : keyword? ('.' :: r) = none := rfl
  -- No number begins with this point either, or the one before it would have had it.
  have hnumber : number? ('.' :: r) = none := by
    unfold number? at hx
    split at hx
    · -- A decimal that a point follows is malformed.
      rename_i w hw
      split at hx <;> cases hx
      rename_i hpoint
      rw [List.drop_left] at hpoint
      exact absurd hr hpoint
    · rename_i hnone
      obtain ⟨w, hw, hx⟩ := Option.map_eq_some_iff.mp hx
      cases hx
      obtain ⟨hdigits, -, -⟩ := integerSpelling?_append_iff.mp hw
      have hnodigits : digits ([] ++ '.' :: r) = [] := rfl
      have hdecimal : decimalSpelling? ('.' :: r) = none := by
        have hfull := decimalSpelling?_append hdigits
        rw [hnone] at hfull
        rw [← List.nil_append ('.' :: r), decimalSpelling?_append hnodigits]
        -- The same fraction and exponent would have made a decimal of the whole number.
        split
        case isFalse => rfl
        rename_i hany
        rw [if_pos (by simpa using .inr (by simpa using hany))] at hfull
        cases hpower : exponentPart? (('.' :: r).drop (fraction ('.' :: r)).length) with
        | none => rfl
        | some power =>
          simp only [hpower] at hfull ⊢
          split at hfull
          · cases hfull
          · rename_i hcond
            exact if_neg hcond
      have hinteger : integerSpelling? ('.' :: r) = none := rfl
      rw [number?, hdecimal, hinteger]
      rfl
  simp only [read, hsymbol, hnumber, hkeyword]
  rfl

/-! ### Symbols, keywords and strings -/

/-- A word that is looked for is found, or not found, whatever follows. -/
theorem find?_replace {table : List (Kind × List Char)}
    (hn : ∀ s ∈ table, s.2.all (!isBlank ·) = true)
    (h : MayReplace cs cs') {found : Option (Kind × List Char)}
    (hf : table.find? (·.2.isPrefixOf (w ++ cs)) = found) (hw : ∀ s ∈ found, s.2 <+: w) :
    table.find? (·.2.isPrefixOf (w ++ cs')) = found := by
  have hnew : ∀ s ∈ table, s.2.isPrefixOf (w ++ cs) = false → s.2.isPrefixOf (w ++ cs') = false := by
    intro s hs hold
    rw [Bool.eq_false_iff] at hold ⊢
    intro hprefix
    apply hold
    rw [List.isPrefixOf_iff_prefix] at hprefix ⊢
    have hs : ∀ c ∈ s.2, isBlank c = false := by simpa using hn s hs
    exact h.append w s.2 hs hprefix
  cases found with
  | none =>
    rw [List.find?_eq_none] at hf ⊢
    intro s hs
    rw [hnew s hs (Bool.eq_false_iff.mpr (hf s hs))]
    decide
  | some s =>
    obtain ⟨-, as, bs, rfl, has⟩ := List.find?_eq_some_iff_append.mp hf
    have hs : s.2 <+: w ++ cs' := (hw s rfl).trans (List.prefix_append w cs')
    refine List.find?_eq_some_iff_append.mpr ⟨List.isPrefixOf_iff_prefix.mpr hs, as, bs, rfl, ?_⟩
    intro a ha
    rw [Bool.not_eq_true', hnew a (List.mem_append_left _ ha) (by simpa using has a ha)]

theorem symbol?_replace (h : MayReplace cs cs') {found : Option Lexeme}
    (hx : symbol? (w ++ cs) = found) (hw : ∀ x ∈ found, x.spelling <+: w) :
    symbol? (w ++ cs') = found := by
  subst hx
  have hn : ∀ s ∈ Kind.symbols, s.2.all (!isBlank ·) = true := by decide
  rw [symbol?, symbol?, find?_replace hn h rfl]
  exact fun s hs => hw _ (Option.mem_map_of_mem _ hs)

theorem keyword?_replace (h : MayReplace cs cs') {found : Option Lexeme}
    (hx : keyword? (w ++ cs) = found) (hw : ∀ x ∈ found, x.spelling <+: w) :
    keyword? (w ++ cs') = found := by
  subst hx
  have hn : ∀ s ∈ Kind.keywords, s.2.all (!isBlank ·) = true := by decide
  rw [keyword?, keyword?, find?_replace hn h rfl]
  exact fun s hs => hw _ (Option.mem_map_of_mem _ hs)

/-- A string literal ends with its closing quote, whatever follows. -/
theorem exists_of_stringContent? {quote : Char} {content : List Char}
    (h : stringContent? quote cs = some content) : ∃ rest, cs = content ++ quote :: rest ∧
      ∀ rest', stringContent? quote (content ++ quote :: rest') = some content := by
  fun_induction stringContent? quote cs generalizing content with
  | case1 => cases h
  | case2 => cases h
  | case3 c r ih =>
    obtain ⟨content, hcontent, rfl⟩ := Option.map_eq_some_iff.mp h
    obtain ⟨rest, rfl, hrest⟩ := ih hcontent
    refine ⟨rest, rfl, fun rest' => ?_⟩
    rw [List.cons_append, List.cons_append, stringContent?, hrest rest']
    rfl
  | case4 r hlone hpair =>
    cases h
    have hb : quote ≠ '\\' := by
      intro hb
      cases r with
      | nil => exact hlone hb rfl
      | cons c s => exact hpair c s hb rfl
    refine ⟨r, rfl, fun rest' => ?_⟩
    rw [List.nil_append, stringContent?_cons hb, if_pos rfl]
  | case5 c r hlone hpair hquote ih =>
    obtain ⟨content, hcontent, rfl⟩ := Option.map_eq_some_iff.mp h
    obtain ⟨rest, rfl, hrest⟩ := ih hcontent
    have hb : c ≠ '\\' := by
      intro hb
      cases content with
      | nil => exact hpair quote rest hb rfl
      | cons d s => exact hpair d (s ++ quote :: rest) hb rfl
    refine ⟨rest, rfl, fun rest' => ?_⟩
    rw [List.cons_append, stringContent?_cons hb, if_neg hquote, hrest rest']
    rfl

/-! ### All lexemes -/

theorem number?_prefix (hx : number? cs = some (.ok x)) : x.spelling <+: cs := by
  unfold number? at hx
  split at hx
  · rename_i w hw
    split at hx <;> cases hx
    obtain ⟨whole, part, power, rest, rfl, rfl, -⟩ := decimalSpelling?_eq_some hw
    exact ⟨rest, by simp⟩
  · obtain ⟨w, hw, hx⟩ := Option.map_eq_some_iff.mp hx
    cases hx
    unfold integerSpelling? at hw
    simp only at hw
    split at hw <;> cases hw
    exact List.takeWhile_prefix _

/-- No number begins like a keyword. -/
theorem number?_of_keyword? {c : Char} {s : List Char} (hx : keyword? (c :: s) = some x)
    (r : List Char) : number? (c :: r) = none := by
  have hheads : ∀ s ∈ Kind.keywords, s.2.head?.any beginsName := by decide
  obtain ⟨hmem, hprefix⟩ := keyword?_eq_some hx
  have hhead := hheads _ hmem
  dsimp only at hhead
  cases hw : x.spelling with
  | nil =>
    rw [hw] at hhead
    cases hhead
  | cons d w =>
    rw [hw] at hhead hprefix
    obtain ⟨rfl, -⟩ := List.cons_prefix_cons.mp hprefix
    exact number?_eq_none hhead r

/-- What a text that begins with no lexeme can be. -/
inductive Unread (c : Char) (r : List Char) : Misfit → Prop where
  | character : Unread c r ⟨.unexpectedCharacter c, []⟩
  | string : Unread c r ⟨.unterminatedString, c :: r⟩
  | number {w s : List Char} (h : c :: r = w ++ '.' :: s) :
      Unread c r ⟨.malformedNumber (String.ofList (w ++ ['.'])), w ++ ['.']⟩

theorem unread_of_number? {c : Char} {r : List Char} {m : Misfit}
    (h : number? (c :: r) = some (.error m)) : Unread c r m := by
  unfold number? at h
  split at h
  · rename_i w hw
    split at h <;> cases h
    rename_i hpoint
    obtain ⟨whole, part, power, rest, hcs, rfl, -⟩ := decimalSpelling?_eq_some hw
    have hsplit : c :: r = (whole ++ (part ++ power)) ++ rest := by simp [hcs]
    rw [hsplit, List.drop_left] at hpoint
    obtain ⟨s, rfl, -⟩ := exists_of_beginsWithPoint hpoint
    exact .number hsplit
  · obtain ⟨_, -, hx⟩ := Option.map_eq_some_iff.mp h
    cases hx

theorem unread_of_read {c : Char} {r : List Char} {m : Misfit} (h : read c r = .error m) :
    Unread c r m := by
  unfold read at h
  split at h
  · cases h
  · split at h
    · split at h <;> cases h
      exact .string
    · split at h
      · rename_i hnumber
        subst h
        exact unread_of_number? hnumber
      · split at h
        · cases h
        · split at h <;> cases h
          exact .character

/-- **A lexeme is what a text begins with.** -/
theorem read_prefix {c : Char} {r : List Char} (h : read c r = .ok x) : x.spelling <+: c :: r := by
  rcases read_cases h with hx | ⟨-, ⟨-, content, hcontent, rfl⟩ | ⟨-, hx | ⟨-, hx | ⟨-, -, rfl⟩⟩⟩⟩
  · exact (symbol?_eq_some hx).2
  · obtain ⟨rest, rfl, -⟩ := exists_of_stringContent? hcontent
    exact ⟨rest, by simp⟩
  · exact number?_prefix hx
  · exact (keyword?_eq_some hx).2
  · exact List.cons_prefix_cons.mpr ⟨rfl, List.takeWhile_prefix _⟩

/-- **A lexeme is read the same if the text after it is replaced**, unless it is a number and a point
    would follow. -/
theorem read_replace {c : Char} {r : List Char} (hr : c :: r = x.spelling ++ cs)
    (h : read c r = .ok x) (hcs : MayReplace cs cs')
    (hp : x.kind = .number → beginsWithPoint cs' = false) :
    ∃ r', x.spelling ++ cs' = c :: r' ∧ read c r' = .ok x := by
  obtain ⟨s, hs⟩ : ∃ s, x.spelling = c :: s := by
    obtain ⟨d, s, hd⟩ := List.exists_cons_of_ne_nil (read_spelling_ne_nil h)
    rw [hd] at hr
    obtain ⟨rfl, -⟩ := List.cons.inj hr
    exact ⟨s, hd⟩
  have hnothing : ∀ y ∈ (none : Option Lexeme), y.spelling <+: x.spelling := nofun
  have hitself : ∀ y ∈ some x, y.spelling <+: x.spelling := by
    intro y hy
    obtain rfl := Option.some.inj hy
    exact List.prefix_rfl
  refine ⟨s ++ cs', by rw [hs]; rfl, ?_⟩
  have hr' : c :: (s ++ cs') = x.spelling ++ cs' := by rw [hs]; rfl
  have hcases := read_cases h
  rw [hr] at hcases
  unfold read
  rw [hr']
  -- The attempts fail in the same order until the one that succeeded.
  rcases hcases with hx | ⟨hsymbol, hcases⟩
  · rw [symbol?_replace hcs hx hitself]
  rw [symbol?_replace hcs hsymbol hnothing]
  dsimp only
  rcases hcases with ⟨hquote, content, hcontent, rfl⟩ | ⟨hquote, hcases⟩
  · obtain ⟨rest, -, hagain⟩ := exists_of_stringContent? hcontent
    obtain rfl : content ++ [c] = s := (List.cons.inj hs).2
    rw [if_pos hquote, List.append_assoc, List.singleton_append, hagain cs']
  rw [if_neg hquote]
  rcases hcases with hnumber | ⟨-, hx | ⟨hkeyword, hc, rfl⟩⟩
  · rw [number?_replace hcs (hp (number?_kind hnumber)) hnumber]
  · rw [keyword?_replace hcs hx hitself]
    -- Why it was no number before does not tell, but a keyword never is one.
    rw [← hr] at hx
    rw [← hr', number?_of_keyword? hx]
  · rw [keyword?_replace hcs hkeyword hnothing]
    obtain rfl : r.takeWhile continuesName = s := (List.cons.inj hs).2
    have hcs' : r = r.takeWhile continuesName ++ cs := (List.cons.inj hr).2
    have hname := hcs.takeWhile (w := r.takeWhile continuesName)
      (fun _ => not_isBlank_of_continuesName)
      (by rw [← hcs'])
    rw [← hr', number?_eq_none hc, if_pos hc, hname]

end

end Lexeme

/-! ## Gaps -/

section
variable {cs cs' g r r' : List Char} {c : Char}

theorem gapFrom_cons (b : Bool) (c : Char) (r : List Char) : gapFrom b (c :: r) =
    if b ∧ c ≠ '\n' ∧ c ≠ '\r' then c :: gapFrom true r
    else if isBlank c then c :: gapFrom false r
    else if c = '/' ∧ r.head? = some '/' then c :: gapFrom true r
    else [] := rfl

theorem gap_cons_eq_nil_iff :
    gap (c :: r) = [] ↔ isBlank c = false ∧ ¬ (c = '/' ∧ r.head? = some '/') := by
  rw [gap, gapFrom_cons, if_neg (by simp)]
  by_cases hblank : isBlank c = true
  · simp [hblank]
  · rw [if_neg hblank]
    by_cases hslash : c = '/' ∧ r.head? = some '/'
    · simp [hslash]
    · simp [hslash, hblank]

theorem gapFrom_isPrefix (b : Bool) (cs : List Char) : gapFrom b cs <+: cs := by
  induction cs generalizing b with
  | nil => exact List.prefix_rfl
  | cons c r ih =>
    rw [gapFrom_cons]
    split
    · exact List.cons_prefix_cons.mpr ⟨rfl, ih true⟩
    · split
      · exact List.cons_prefix_cons.mpr ⟨rfl, ih false⟩
      · split
        · exact List.cons_prefix_cons.mpr ⟨rfl, ih true⟩
        · exact List.nil_prefix

/-- A gap is one by itself. -/
theorem gapFrom_gapFrom (b : Bool) (cs : List Char) : gapFrom b (gapFrom b cs) = gapFrom b cs := by
  induction cs generalizing b with
  | nil => rfl
  | cons c r ih =>
    by_cases hcomment : b ∧ c ≠ '\n' ∧ c ≠ '\r'
    · simp only [gapFrom_cons, if_pos hcomment, ih]
    · by_cases hblank : isBlank c = true
      · simp only [gapFrom_cons, if_neg hcomment, if_pos hblank, ih]
      · by_cases hslash : c = '/' ∧ r.head? = some '/'
        · -- The second slash is in the comment that the first begins.
          obtain ⟨rfl, hsecond⟩ := hslash
          obtain ⟨s, rfl⟩ := List.head?_eq_some_iff.mp hsecond
          have hfirst : gapFrom b ('/' :: '/' :: s) = '/' :: gapFrom true ('/' :: s) := by
            rw [gapFrom_cons, if_neg hcomment, if_neg hblank, if_pos (by simp)]
          have hhead : (gapFrom true ('/' :: s)).head? = some '/' := by simp [gapFrom_cons]
          rw [hfirst, gapFrom_cons, if_neg hcomment, if_neg hblank, if_pos ⟨rfl, hhead⟩, ih]
        · simp only [gapFrom_cons, if_neg hcomment, if_neg hblank, if_neg hslash]
          rfl

/-- How a gap goes on depends on its first character, and on a second slash after a first. -/
theorem gapFrom_cons_eq {b : Bool} {s s' : List Char} (hg : gapFrom b (c :: s) = c :: g)
    (hs : s.head? = some '/' ↔ s'.head? = some '/') :
    ∃ b', gapFrom b' s = g ∧ gapFrom b (c :: s') = c :: gapFrom b' s' := by
  rw [gapFrom_cons] at hg ⊢
  simp only [hs] at hg
  split at hg
  · exact ⟨true, (List.cons.inj hg).2, if_pos ‹_›⟩
  · rename_i hcomment
    rw [if_neg hcomment]
    split at hg
    · exact ⟨false, (List.cons.inj hg).2, if_pos ‹_›⟩
    · rename_i hblank
      rw [if_neg hblank]
      split at hg
      · exact ⟨true, (List.cons.inj hg).2, if_pos ‹_›⟩
      · cases hg

/-- What follows a gap begins with none. -/
theorem gap_of_gapFrom {b : Bool} (hg : gapFrom b (g ++ cs) = g) : gap cs = [] := by
  induction g generalizing b with
  | nil =>
    cases cs with
    | nil => rfl
    | cons c r =>
      rw [List.nil_append, gapFrom_cons] at hg
      split at hg
      · cases hg
      · split at hg
        · cases hg
        · split at hg
          · cases hg
          · rename_i hblank hslash
            exact gap_cons_eq_nil_iff.mpr ⟨Bool.eq_false_iff.mpr hblank, hslash⟩
  | cons d g ih =>
    obtain ⟨b', hb', -⟩ := gapFrom_cons_eq hg Iff.rfl
    exact ih hb'

/-- A gap ends where the next lexeme begins, whatever goes on behind its first character. -/
theorem gapFrom_replace {b : Bool} (hg : gapFrom b (g ++ c :: r) = g) (hc : gap (c :: r') = []) :
    gapFrom b (g ++ c :: r') = g := by
  induction g generalizing b with
  | nil =>
    obtain ⟨hblank, hslash⟩ := gap_cons_eq_nil_iff.mp hc
    rw [List.nil_append, gapFrom_cons] at hg ⊢
    split at hg
    · cases hg
    · rename_i hcomment
      rw [if_neg hcomment, if_neg (by simp [hblank]), if_neg hslash]
  | cons d g ih =>
    have hhead : (g ++ c :: r).head? = some '/' ↔ (g ++ c :: r').head? = some '/' := by
      cases g <;> exact Iff.rfl
    obtain ⟨b', hb', hrest⟩ := gapFrom_cons_eq hg hhead
    rw [List.cons_append, hrest, ih hb']

/-- A text that is a gap is passed, and so is the end of its last line. -/
theorem gapFrom_newLine {b : Bool} (hg : gapFrom b g = g) (r : List Char) :
    gapFrom b (g ++ '\n' :: r) = g ++ gap ('\n' :: r) := by
  induction g generalizing b with
  | nil =>
    have hblank : isBlank '\n' = true := rfl
    simp [gap, gapFrom_cons, hblank]
  | cons d g ih =>
    have hhead : g.head? = some '/' ↔ (g ++ '\n' :: r).head? = some '/' := by cases g <;> simp
    obtain ⟨b', hb', hrest⟩ := gapFrom_cons_eq hg hhead
    rw [List.cons_append, hrest, ih hb']
    rfl

/-- The gap in front of a lexeme stays a gap if the text after the lexeme is replaced. -/
theorem gap_replace {w : List Char} (hw : w ≠ []) (h : MayReplace cs cs')
    (hgap : gap (w ++ cs) = []) : gap (w ++ cs') = [] := by
  obtain ⟨c, w, rfl⟩ := List.exists_cons_of_ne_nil hw
  rw [List.cons_append, gap_cons_eq_nil_iff] at hgap ⊢
  refine ⟨hgap.1, fun ⟨hc, hslash⟩ => hgap.2 ⟨hc, ?_⟩⟩
  exact (h.append w).head? (by decide) hslash

end

end EL
