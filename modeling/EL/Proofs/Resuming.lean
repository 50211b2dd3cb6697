import EL.Proofs.Descent
import EL.Proofs.Relocation

/-!
# Going on and starting anew

A parser that has been asked for some expressions keeps its cursor and its counter of depth. The
counter is nothing again whenever an answer has been given, after errors as well
(`Resumable.exists_resume`). The cursor has nothing of the text before it. So **to ask once more is to
ask a new parser at the rest of the text**, however often and with whatever success was asked before
(`Resumable.resume_eq_start`).
-/

set_option autoImplicit false

namespace EL

/-- Errors that differ only in the offset of the token they name report the same. -/
theorem ParseError.same_of_relocate {x x' : ParseError} (h : x'.relocate id = x.relocate id) :
    x.same x' = true := by
  obtain ⟨hcause, hlocation, hpath⟩ := ParseError.mk.inj h
  have hlocation : x'.location = x.location := hlocation
  have hstage : x'.stage = x.stage := Cause.stage_of_relocate hcause
  have hmessage : x'.message = x.message := Cause.message_of_relocate hcause
  simp [ParseError.same, hstage, hlocation, hmessage, hpath]

namespace Parser

/-- The same tree with the same places, or errors that report the same. -/
def SameAnswer : Except ParseError Expr → Except ParseError Expr → Prop
  | .ok e, .ok e' => e = e'
  | .error x, .error x' => x.same x' = true
  | _, _ => False

namespace Resumable

/-- However often a parser is asked, it answers, and its counter of depth is nothing then. -/
theorem exists_resume (n : Nat) {p : Resumable} (hp : p.reader.depth = 0) :
    ∃ q, p.resume n = some q ∧ q.reader.depth = 0 ∧ q.options = p.options := by
  -- Each parse hands on a counter that is nothing, whatever it answered.
  induction n generalizing p with
  | zero => exact ⟨p, rfl, hp, rfl⟩
  | succ n ih =>
    obtain ⟨q, hq, hdepth, ho⟩ :=
      ih (p := ⟨⟨(p.reader.cursor.parse p.options).2, 0⟩, p.options⟩) rfl
    refine ⟨q, ?_, hdepth, ho⟩
    rw [resume, parse_eq hp, Option.bind_some]
    exact hq

/-- **To go on is to start anew.** After any number of parses, the next one is the first one of a new
    parser at what is left of the text, at the line and the column that were reached: the answer is
    the same, and so is where it leaves the parser. The counter of depth is nothing before and after.
    What is answered is what the machine answers. -/
theorem resume_eq_start (text : String) (l : Location) (o : ParseOptions) (n : Nat) :
    ∃ p answer p' answer' q, (start text l o).resume n = some p ∧
      p.parse = some (answer, p') ∧
      (start p.reader.cursor.remainder p.reader.cursor.location o).parse = some (answer', q) ∧
      SameAnswer answer answer' ∧
      q.reader.cursor.remainder = p'.reader.cursor.remainder ∧
      q.reader.cursor.location = p'.reader.cursor.location ∧
      p.reader.depth = 0 ∧ p'.reader.depth = 0 ∧ q.reader.depth = 0 ∧
      p.reader.cursor.parse o = (answer, p'.reader.cursor) := by
  obtain ⟨⟨⟨c, d⟩, o'⟩, hp, hdepth, ho⟩ := exists_resume n (p := start text l o) rfl
  obtain rfl : d = 0 := hdepth
  obtain rfl : o' = o := ho
  have hanswer : Resumable.parse ⟨⟨c, 0⟩, o'⟩ =
      some ((c.parse o').1, ⟨⟨(c.parse o').2, 0⟩, o'⟩) := parse_eq rfl
  have hanew : (start c.remainder c.location o').parse =
      some (((Cursor.ofText c.remainder c.location).parse o').1,
        ⟨⟨((Cursor.ofText c.remainder c.location).parse o').2, 0⟩, o'⟩) := parse_eq rfl
  refine ⟨_, _, _, _, _, hp, hanswer, hanew, ?_⟩
  -- The new parser counts offsets from zero. In nothing else does it stand elsewhere.
  have hmoved : c.Moved id (Cursor.ofText c.remainder c.location) := by
    constructor
    · exact String.toList_ofList
    · exact fun _ => rfl
  have hparse := hmoved.parse o'
  generalize c.parse o' = going at hparse
  generalize (Cursor.ofText c.remainder c.location).parse o' = anew at hparse
  cases hparse with
  | ok he hstop =>
    rw [Expr.relocate_id] at he
    exact ⟨he.symm, congrArg String.ofList hstop.rest, hstop.here, rfl, rfl, rfl, rfl⟩
  | error hx hstop =>
    exact ⟨ParseError.same_of_relocate hx, congrArg String.ofList hstop.rest, hstop.here, rfl,
      rfl, rfl, rfl⟩

end Resumable

end Parser

end EL
