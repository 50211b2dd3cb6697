import EL.Proofs.Onward
import EL.Proofs.Relocation

/-!
# A text inside another

A host hands over a text that it cut out of a file, with the place where the text began there. **All
that this changes is where things are** (`read_embedded`): the lines are counted from the first line
given, the columns of the first line from the column given, and nothing else is counted anew. The
later lines of the text are whole lines of the file, so their columns are what they are, and the bytes
are counted from the start of the text in any case.

It is much the same with a text that stands behind other text. There the bytes are counted on too, and
a text that begins at `l` is one with no bytes in front of it (`Cursor.embed_eq_behind`).
-/

set_option autoImplicit false

namespace EL

/-! ## Places -/

/-- Where a place of a text that stands alone is when the text begins at `l`. -/
def Location.shift (l p : Location) : Location :=
  if p.line = 1 then ⟨l.line + p.line - 1, l.column + p.column - 1⟩
  else ⟨l.line + p.line - 1, p.column⟩

namespace Location

/-- Are lines and columns counted from one? -/
def Counted (p : Location) : Prop := 1 ≤ p.line ∧ 1 ≤ p.column

theorem counted_origin : origin.Counted := ⟨Nat.le_refl 1, Nat.le_refl 1⟩

theorem Counted.next {p : Location} (h : p.Counted) (c : Char) : (p.next c).Counted := by
  obtain ⟨hline, hcolumn⟩ := h
  unfold Location.next
  split
  · exact ⟨Nat.le_add_right_of_le hline, Nat.le_refl _⟩
  · exact ⟨hline, Nat.le_add_right_of_le hcolumn⟩

theorem Counted.advance {p : Location} (h : p.Counted) (w : List Char) : (p.advance w).Counted := by
  induction w generalizing p with
  | nil => exact h
  | cons c w ih => exact ih (h.next c)

theorem shift_next (l : Location) {p : Location} (h : p.Counted) (c : Char) :
    (l.shift p).next c = l.shift (p.next c) := by
  obtain ⟨hline, hcolumn⟩ := h
  unfold shift next
  by_cases hc : c = '\n'
  · have hnext : p.line + 1 ≠ 1 := by omega
    have hsum : l.line + p.line - 1 + 1 = l.line + (p.line + 1) - 1 := by omega
    simp only [if_pos hc, if_neg hnext]
    split <;> simp only [hsum]
  · have hsum : l.column + p.column - 1 + 1 = l.column + (p.column + 1) - 1 := by omega
    simp only [if_neg hc]
    split
    · simp only [hsum]
    · rfl

theorem shift_advance (l : Location) {p : Location} (h : p.Counted) (w : List Char) :
    (l.shift p).advance w = l.shift (p.advance w) := by
  induction w generalizing p with
  | nil => rfl
  | cons c w ih => rw [advance_cons, advance_cons, shift_next l h, ih (h.next c)]

/-- **A place is shifted by as much as its text.** -/
theorem advance_eq_shift (l : Location) (w : List Char) : l.advance w = l.shift (origin.advance w) := by
  rw [← shift_advance l counted_origin]
  rfl

end Location

/-! ## Text behind other text -/

/-- Where a place of a text that stands alone is when the text begins at `p`. -/
def Position.behind (p q : Position) : Position :=
  ⟨p.offset + q.offset, p.location.shift q.location⟩

namespace Position

theorem behind_start (p : Position) : p.behind (.start .origin) = p := by
  have hshift : p.location.shift .origin = p.location := (Location.advance_eq_shift _ []).symm
  show Position.mk _ (p.location.shift .origin) = p
  rw [hshift]
  rfl

theorem behind_advance (p : Position) {q : Position} (hq : q.location.Counted) (w : List Char) :
    (p.behind q).advance w = p.behind (q.advance w) := by
  simp only [behind, advance, Location.shift_advance _ hq, Nat.add_assoc]

end Position

/-- The token, with its text beginning at `p`. -/
def Token.behind (p : Position) (t : Token) : Token := ⟨t.kind, t.text, p.behind t.start⟩

/-- The error, with the text beginning at `p`. -/
def ParseError.behind (p : Position) (x : ParseError) : ParseError :=
  ⟨x.cause, p.location.shift x.location, x.path⟩

namespace Cursor

/-- The cursor, with its text beginning at `p`. -/
def behind (p : Position) (c : Cursor) : Cursor := ⟨c.rest, p.behind c.position⟩

/-- What was read, with its text beginning at `p`. -/
def readBehind (p : Position) : Except ParseError Token × Cursor → Except ParseError Token × Cursor
  | (.ok t, after) => (.ok (t.behind p), after.behind p)
  | (.error x, stop) => (.error (x.behind p), stop.behind p)

section
variable {c : Cursor} (p : Position)

theorem pass_behind (hc : c.location.Counted) (w : List Char) :
    (c.behind p).pass w = (c.pass w).behind p :=
  congrArg (Cursor.mk _) (p.behind_advance hc w)

theorem readHere_behind (hc : c.location.Counted) :
    (c.behind p).readHere = readBehind p c.readHere := by
  have hrest : (c.behind p).rest = c.rest := rfl
  unfold readHere
  rw [hrest]
  split
  · rfl
  · split
    · rw [pass_behind p hc]
      rfl
    · rw [pass_behind p hc]
      rfl

/-- **What is read is the same in a text that stands behind another.** -/
theorem next_behind (hc : c.location.Counted) : (c.behind p).next = readBehind p c.next := by
  have hskip : (c.behind p).skipGap = c.skipGap.behind p := pass_behind p hc (gap c.rest)
  rw [next, hskip]
  exact readHere_behind p (hc.advance (gap c.rest))

end

theorem Onward.counted {c c' : Cursor} (h : c.Onward c') (hc : c.location.Counted) :
    c'.location.Counted := by
  obtain ⟨w, -, hw⟩ := h
  have hplace : c'.location = c.location.advance w := congrArg Position.location hw
  rw [hplace]
  exact hc.advance w

end Cursor

/-! ## Text that begins in some place -/

/-- The place, with the text beginning at `l`. -/
def Position.embed (l : Location) (p : Position) : Position := ⟨p.offset, l.shift p.location⟩

/-- The cursor, with the text beginning at `l`. -/
def Cursor.embed (l : Location) (c : Cursor) : Cursor := ⟨c.rest, c.position.embed l⟩

/-- The token, with the text beginning at `l`. -/
def Token.embed (l : Location) (t : Token) : Token := ⟨t.kind, t.text, t.start.embed l⟩

/-- Results of the same, of which the second was obtained in a text that begins at `l` in the file
    `path`. -/
inductive Embedded {α : Type} (l : Location) (path : Option String) (R : α → α → Prop) :
    Except ParseError α × Cursor → Except ParseError α × Cursor → Prop where
  | ok {a a' : α} {c : Cursor} (ha : R a a') : Embedded l path R (.ok a, c) (.ok a', c.embed l)
  | error {x x' : ParseError} {c : Cursor} (hstage : x'.stage = x.stage)
      (hmessage : x'.message = x.message) (hlocation : x'.location = l.shift x.location)
      (hnone : x.path = none) (hpath : x'.path = path) :
      Embedded l path R (.error x, c) (.error x', c.embed l)

/-! ## Cursors -/

section
variable {text : String} {c c' : Cursor} (l : Location)

theorem Cursor.onward_embed (h : (Cursor.ofText text).Onward c) :
    (Cursor.ofText text l).Onward (c.embed l) := by
  obtain ⟨w, hw, hc⟩ := h
  refine ⟨w, hw, ?_⟩
  rw [Cursor.embed, hc, Position.embed]
  exact congrArg (Position.mk _) (Location.advance_eq_shift l w).symm

/-- What is left of the text tells where a cursor stands in it. -/
theorem Cursor.eq_embed (h : (Cursor.ofText text).Onward c)
    (h' : (Cursor.ofText text l).Onward c') (hrest : c'.rest = c.rest) : c' = c.embed l :=
  h'.eq_of_rest (onward_embed l h) hrest

theorem Cursor.moved_embed (h : (Cursor.ofText text).Onward c) :
    c.Moved l.shift (c.embed l) where
  rest := rfl
  location u := by
    obtain ⟨w, -, hc⟩ := h
    have hlocation : c.location = Location.origin.advance w := by
      rw [Cursor.location, hc]
      rfl
    have hembed : (c.embed l).location = l.shift c.location := rfl
    rw [hembed, hlocation, ← Location.advance_eq_shift, ← Location.advance_append,
      ← Location.advance_append, Location.advance_eq_shift]

theorem Position.embed_eq_behind (p : Position) : p.embed l = (Position.start l).behind p :=
  congrArg (Position.mk · _) (Nat.zero_add p.offset).symm

theorem Cursor.embed_eq_behind (c : Cursor) : c.embed l = c.behind (.start l) :=
  congrArg (Cursor.mk c.rest) (c.position.embed_eq_behind l)

theorem Token.embed_eq_behind (t : Token) : t.embed l = t.behind (.start l) :=
  congrArg (Token.mk t.kind t.text) (t.start.embed_eq_behind l)

/-- **What is read is the same in a text that begins at `l`.** -/
theorem Cursor.next_embedded (h : (Cursor.ofText text).Onward c) :
    Embedded l none (fun t t' => t' = t.embed l) c.next (c.embed l).next := by
  rw [embed_eq_behind, next_behind _ (h.counted Location.counted_origin)]
  match hn : c.next with
  | (.ok t, after) =>
    rw [readBehind, ← embed_eq_behind]
    exact .ok (t.embed_eq_behind l).symm
  | (.error x, stop) =>
    rw [readBehind, ← embed_eq_behind]
    have hnone : x.path = none := (of_next_error hn).2.2
    exact .error rfl rfl rfl hnone hnone

theorem Cursor.onward_forward (c : Cursor) (n : Nat) : c.Onward (c.forward n) := by
  induction n generalizing c with
  | zero => exact .refl c
  | succ n ih => exact (onward_next c).trans (ih c.next.2)

theorem Cursor.forward_embed (h : (Cursor.ofText text).Onward c) (n : Nat) :
    (c.embed l).forward n = (c.forward n).embed l := by
  induction n generalizing c with
  | zero => rfl
  | succ n ih =>
    have hcursor : (c.embed l).next.2 = c.next.2.embed l := by
      have hnext := next_embedded l h
      generalize c.next = r at hnext
      generalize (c.embed l).next = r' at hnext
      cases hnext <;> rfl
    rw [Cursor.forward, Cursor.forward, hcursor, ih (h.trans (onward_next c))]

end

/-! ## Parses -/

open EL.Parser

/-- The file only names itself in errors. -/
theorem Cursor.parse_path (c : Cursor) (mode : Mode) (path : Option String) (limit : Option Nat) :
    c.parse ⟨mode, path, limit⟩ =
      ((c.parse ⟨mode, none, limit⟩).1.mapError (·.attachPath path),
        (c.parse ⟨mode, none, limit⟩).2) := by
  unfold Cursor.parse
  cases run limit .initial c c.stream with
  | refused x stop => rfl
  | accepted e stop following =>
    dsimp only
    cases mode.objection? following <;> rfl

theorem Cursor.path_of_parse {c stop : Cursor} {mode : Mode} {limit : Option Nat} {x : ParseError}
    (h : c.parse ⟨mode, none, limit⟩ = (.error x, stop)) : x.path = none := by
  cases run_ends limit .initial c with
  | refuses hr =>
    rw [hr.parse] at h
    cases h
    rfl
  | breaks hb =>
    rw [hb.parse] at h
    cases h
    exact (of_next_error hb.next).2.2
  | accepts ha =>
    cases mode with
    | lenient =>
      rw [ha.parse_lenient] at h
      cases h
    | strict =>
      rw [ha.parse_strict] at h
      split at h <;> cases h
      rfl

/-- **Where a text begins, and in which file, shows in places only.** A parse in a text that begins at
    `l` returns the tree of a parse in the text alone with the place of every node shifted, or the same
    error at the shifted place and with the file, and it stops at the same byte. Likewise for every
    token that is read of the text, however often is read. -/
theorem read_embedded (text : String) (l : Location) (mode : Mode) (path : Option String)
    (limit : Option Nat) :
    Embedded l path (fun e e' => e' = e.relocate l.shift ∧ e.same e' = true)
        ((Cursor.ofText text).parse ⟨mode, none, limit⟩)
        ((Cursor.ofText text l).parse ⟨mode, path, limit⟩) ∧
      ∀ n, Embedded l none (fun t t' => t' = t.embed l) ((Cursor.ofText text).forward n).next
        ((Cursor.ofText text l).forward n).next := by
  have hstart : Cursor.ofText text l = (Cursor.ofText text).embed l := by
    have hshift : l.shift .origin = l := (Location.advance_eq_shift l []).symm
    show _ = Cursor.mk _ ⟨_, l.shift .origin⟩
    rw [hshift]
    rfl
  constructor
  · have hmoved := (Cursor.moved_embed l (.refl (Cursor.ofText text))).parse ⟨mode, none, limit⟩
    have halone := (Cursor.ofText text).onward_parse ⟨mode, none, limit⟩
    have hembedded := (Cursor.ofText text l).onward_parse ⟨mode, none, limit⟩
    rw [← hstart] at hmoved
    rw [Cursor.parse_path _ mode path]
    generalize h : (Cursor.ofText text).parse ⟨mode, none, limit⟩ = r at hmoved halone
    generalize (Cursor.ofText text l).parse ⟨mode, none, limit⟩ = r' at hmoved hembedded
    cases hmoved with
    | ok he hstop =>
      rw [Cursor.eq_embed l halone hembedded hstop.rest]
      refine .ok ⟨he, ?_⟩
      rw [he, Expr.same_relocate]
      exact same_of_parse h
    | error hx hstop =>
      rw [Cursor.eq_embed l halone hembedded hstop.rest]
      obtain ⟨hcause, hlocation, hpath⟩ := ParseError.mk.inj hx
      have hnone := Cursor.path_of_parse h
      refine .error ?_ ?_ ?_ hnone (ParseError.path_attachPath (hpath.trans hnone) path)
      · rw [ParseError.stage_attachPath]
        exact Cause.stage_of_relocate hcause
      · rw [ParseError.message_attachPath]
        exact Cause.message_of_relocate hcause
      · rw [ParseError.location_attachPath]
        exact hlocation
  · intro n
    have hafter := (Cursor.ofText text).onward_forward n
    rw [hstart, Cursor.forward_embed l (.refl _)]
    exact Cursor.next_embedded l hafter

end EL
