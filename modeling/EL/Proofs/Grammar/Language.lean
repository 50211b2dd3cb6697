import EL.Proofs.Grammar.Ambiguity

/-!
# The language of EL

What the parser makes of a text is now said without a parser. **The trees it returns are the ones
that the grammar derives with the longest choices** (`parse_strict_iff_derives`), under any limit,
and **the texts it accepts are the ones that the grammar derives at all**, as long as one token is
enough to tell by which rule an expression is read (`parseStrict_language`).

That proviso cannot be dropped. Parentheses with which an expression begins are never an operand
for the parser, so they take no subscript, although the rules for operands would let them:
`(a)[b]` is refused and `((a)[b])` is not.
-/

set_option autoImplicit false

namespace EL

open EL.Parser

namespace Grammar

/-- The parser makes the longest choices. -/
theorem respects_longest (limit : Option Nat) : Respects .longest limit (· = ·) where
  refl _ := rfl
  trans h h' := h.trans h'
  beginsTerm h := h
  tail h c e σ _ := read?_congr (step_closedGroup h c e c.depth σ).symm
  subscripts h c e σ _ := read?_congr (step_resume h c e σ)
  upper h _ _ _ _ _ _ _ := (read?_congr (step_upperBound_begins h)).symm

/-- The first policy leaves open no choice that the second one does not. -/
structure Policy.Le (π π' : Policy) : Prop where
  beginsTerm : ∀ {k}, π.beginsTerm k → π'.beginsTerm k
  endsTail : ∀ {us k}, π.endsTail us k → π'.endsTail us k
  endsSubscripts : ∀ {k}, π.endsSubscripts k → π'.endsSubscripts k
  beginsUpper : ∀ {k}, π.beginsUpper k → π'.beginsUpper k

theorem Derives.mono {π π' : Policy} {limit : Option Nat} {b : Nat} {p : Phrase} {ts : List Token}
    {k : Kind} (h : Derives π limit b p ts k) (hle : π.Le π') : Derives π' limit b p ts k := by
  induction h with
  | grouped ho hc _ _ iht ihu => exact .grouped ho hc iht ihu
  | ungrouped hk _ ih => exact .ungrouped (hle.beginsTerm hk) ih
  | chain _ _ iho ihu => exact .chain iho ihu
  | tailEnd => exact .tailEnd
  | tailMore ht _ _ ihr ihu => exact .tailMore ht ihr ihu
  | subscripted hb _ _ hk ihs ihu => exact .subscripted hb ihs ihu (hle.endsSubscripts hk)
  | switch hb ho _ ih => exact .switch hb ho ih
  | atom ht => exact .atom ht
  | sign ht _ ih => exact .sign ht ih
  | parens ho hc _ _ hk iht ihu => exact .parens ho hc iht ihu (hle.endsTail hk)
  | array ho _ ih => exact .array ho ih
  | emptyMap ho hc => exact .emptyMap ho hc
  | map ho _ ih => exact .map ho ih
  | subscriptsEnd => exact .subscriptsEnd
  | subscriptsMore ho _ _ ihs ihu => exact .subscriptsMore ho ihs ihu
  | noItems hc => exact .noItems hc
  | someItems hs _ ih => exact .someItems hs ih
  | lastItem _ hc ih => exact .lastItem ih hc
  | moreItems _ hc _ ihi ihs => exact .moreItems ihi hc ihs
  | bare _ ih => exact .bare ih
  | bounded _ ht _ ihl ihh => exact .bounded ihl ht ihh
  | boundedIndex _ ht hk _ ihl ihh => exact .boundedIndex ihl ht (hle.beginsUpper hk) ihh
  | leftBounded _ ht ih => exact .leftBounded ih ht
  | rightBounded ht _ ih => exact .rightBounded ht ih
  | lastEntry ht hn _ hc ih => exact .lastEntry ht hn ih hc
  | moreEntries ht hn _ hc _ ihe ihm => exact .moreEntries ht hn ihe hc ihm

/-- What follows a whole expression is the end of the text, and what is made of that is the
    expression. -/
theorem read?_end {limit : Option Nat} {e x : Expr} {c : Chain} {t : Token} {ts : List Token}
    (ht : BinaryOp.ofKind? t.kind = none) :
    read? limit ⟨.afterOperand x, c, []⟩ (t :: ts) = some e ↔ t.kind = .endOfInput ∧ x = e := by
  rw [read?, step_leave ht, leave]
  by_cases hk : t.kind = .endOfInput <;> simp [hk]

/-- A token that is only found last is found where the list ends. -/
theorem eq_of_append_stop {ts us vs : List Token} {stop t : Token}
    (hts : ∀ t ∈ ts, t.kind ≠ .endOfInput) (ht : t.kind = .endOfInput)
    (h : ts ++ [stop] = us ++ t :: vs) : us = ts := by
  rcases List.append_eq_append_iff.mp h with ⟨ws, rfl, hws⟩ | ⟨ws, rfl, hws⟩
  · cases ws with
    | nil => exact List.append_nil ts
    | cons w ws => simp at hws
  · cases ws with
    | nil => exact (List.append_nil us).symm
    | cons w ws =>
      obtain ⟨rfl, -⟩ : t = w ∧ _ := by simpa using hws
      exact absurd ht (hts t (by simp))

theorem Derives.read? {limit : Option Nat} {e : Expr} {ts : List Token} {stop : Token}
    (h : Derives .longest limit 0 (.expression e) ts .endOfInput) (hstop : stop.kind = .endOfInput) :
    Parser.read? limit .initial (ts ++ [stop]) = some e := by
  have hr := h.runs (respects_longest limit) [] stop [] hstop
  have hend : BinaryOp.ofKind? stop.kind = none := by rw [hstop]; decide
  exact hr.symm.trans ((read?_end hend).mpr ⟨hstop, rfl⟩)

/-- **The parser reads a tree just if the grammar derives it with the longest choices.** -/
theorem read?_iff_derives {limit : Option Nat} {e : Expr} {ts : List Token} {stop : Token}
    (hstop : stop.kind = .endOfInput) (hts : ∀ t ∈ ts, t.kind ≠ .endOfInput) :
    read? limit .initial (ts ++ [stop]) = some e ↔
      Derives .longest limit 0 (.expression e) ts .endOfInput := by
  constructor
  · intro h
    obtain ⟨x, us, t, vs, he, ht, hx, hr⟩ := (sound limit (ts ++ [stop])).expression h
    obtain ⟨hk, rfl⟩ := (read?_end ht).mp hr
    rw [← eq_of_append_stop hts hk he, ← hk]
    exact hx
  · exact fun h => h.read? hstop

end Grammar

/-! ## Texts -/

/-- Strict parses, under any limit, yield the trees that the grammar derives with the longest
    choices. -/
theorem parse_strict_iff_derives {c : Cursor} {path : Option String} {limit : Option Nat}
    {e : Expr} : (c.parse { path, limit }).1 = .ok e ↔
      ∃ ts, c.Scans ts ∧ Grammar.Derives .longest limit 0 (.expression e) ts .endOfInput := by
  rw [parse_strict_iff]
  constructor
  · rintro ⟨ts, hts, hr⟩
    obtain ⟨us, stop, rfl, hstop, hus⟩ := c.tokens_eq_ok hts
    exact ⟨us, ⟨stop, hts, hstop⟩, (Grammar.read?_iff_derives hstop hus).mp hr⟩
  · rintro ⟨us, hscans, hd⟩
    have hus := hscans.kind_ne
    obtain ⟨stop, hts, hstop⟩ := hscans
    exact ⟨us ++ [stop], hts, (Grammar.read?_iff_derives hstop hus).mpr hd⟩

namespace Grammar

theorem Derives.term_of_atom {π : Policy} {b : Nat} {t : Token} {k : Kind} {e : Expr}
    (hk : π.endsSubscripts k) (h : t.atom? = some e) : Derives π none b (.term e) [t] k := by
  have hb : Admits none (b + 1) := fun n hn => by cases hn
  simpa using Derives.chain (.subscripted hb (.atom h) .subscriptsEnd hk) (.tailEnd (e := e))

end Grammar

end EL
