import EL.Proofs.Places
import EL.Proofs.Verdicts

/-!
# A text in another place

Two cursors may stand before the same text in different places. **What is read from either is the
same, up to the places**: the next token (`Cursor.Moved.next`), and whatever a parse makes of the
tokens (`Cursor.Moved.parse`). Nothing of the text before a cursor is in it, and where a text stands
is carried along and not looked at.

`f` takes the one place to the other. It must do so for all places that can still be reached.
-/

set_option autoImplicit false

namespace EL

/-! ## Trees that stay where they are -/

namespace Expr

mutual

theorem relocate_id : ∀ e : Expr, e.relocate id = e
  | literal _ _ | var _ _ => rfl
  | unary _ e _ => by rw [relocate, relocate_id e, id]
  | binary _ a b _ => by rw [relocate, relocate_id a, relocate_id b, id]
  | array es _ | switch es _ => by rw [relocate, relocateList_id es, id]
  | map m _ => by rw [relocate, relocateEntries_id m, id]
  | subscript a i _ => by rw [relocate, relocate_id a, relocate_id i, id]

theorem relocateList_id : ∀ es : List Expr, relocateList id es = es
  | [] => rfl
  | e :: es => by rw [relocateList, relocate_id e, relocateList_id es]

theorem relocateEntries_id : ∀ m : List (String × Expr), relocateEntries id m = m
  | [] => rfl
  | (k, e) :: m => by rw [relocateEntries, relocate_id e, relocateEntries_id m]

end

end Expr

/-! ## Errors -/

namespace Cause

@[simp] theorem stage_relocate (f : Location → Location) (c : Cause) :
    (c.relocate f).stage = c.stage := by
  cases c <;> rfl

@[simp] theorem message_relocate (f : Location → Location) (c : Cause) :
    (c.relocate f).message = c.message := by
  cases c <;> rfl

variable {f g : Location → Location} {c c' : Cause}

/-- Neither the stage nor the wording of a cause depends on places. -/
theorem stage_of_relocate (h : c'.relocate f = c.relocate g) : c'.stage = c.stage := by
  rw [← stage_relocate f, h, stage_relocate]

theorem message_of_relocate (h : c'.relocate f = c.relocate g) : c'.message = c.message := by
  rw [← message_relocate f, h, message_relocate]

end Cause

/-- The error, moved. -/
def ParseError.relocate (f : Location → Location) (x : ParseError) : ParseError :=
  ⟨x.cause.relocate f, f x.location, x.path⟩

theorem ParseError.relocate_attachPath (f : Location → Location) (x : ParseError)
    (path : Option String) :
    (x.attachPath path).relocate f = (x.relocate f).attachPath path := by
  cases path <;> rfl

/-- No misfit names a token. -/
theorem Lexeme.relocate_cause {c : Char} {r : List Char} {m : Misfit} (h : read c r = .error m)
    (f : Location → Location) : m.cause.relocate f = m.cause := by
  cases unread_of_read h <;> rfl

theorem Token.relocate_congr {f : Location → Location} {t t' : Token} (hk : t'.kind = t.kind)
    (ht : t'.text = t.text) (hl : t'.location = f t.location) : t'.relocate id = t.relocate f := by
  rw [relocate, relocate, hk, ht, hl, id]

/-! ## Cursors -/

/-- The second cursor stands before the same text as the first, and `f` takes the places of the
    first to its places. -/
structure Cursor.Moved (f : Location → Location) (c c' : Cursor) : Prop where
  rest : c'.rest = c.rest
  location : ∀ w, c'.location.advance w = f (c.location.advance w)

/-- Results that differ in places only, each with the cursor where it was obtained. -/
inductive MovedResult {α : Type} (f : Location → Location) (R : α → α → Prop) :
    Except ParseError α × Cursor → Except ParseError α × Cursor → Prop
  | ok {a a' : α} {c c' : Cursor} (ha : R a a') (hc : c.Moved f c') :
      MovedResult f R (.ok a, c) (.ok a', c')
  | error {x x' : ParseError} {c c' : Cursor} (hx : x'.relocate id = x.relocate f)
      (hc : c.Moved f c') : MovedResult f R (.error x, c) (.error x', c')

namespace Cursor.Moved

variable {f : Location → Location} {c c' : Cursor}

theorem here (h : Moved f c c') : c'.location = f c.location := h.location []

theorem pass (h : Moved f c c') (w : List Char) : Moved f (c.pass w) (c'.pass w) where
  rest := by rw [Cursor.pass, Cursor.pass, h.rest]
  location u := by
    show (c'.location.advance w).advance u = f ((c.location.advance w).advance u)
    rw [← Location.advance_append, ← Location.advance_append, h.location]

/-- **What is read next is the same in either place.** -/
theorem next (h : Moved f c c') :
    MovedResult f (fun t t' => t'.relocate id = t.relocate f) c.next c'.next := by
  have hskip : Moved f c.skipGap c'.skipGap := by
    rw [skipGap, skipGap, h.rest]
    exact h.pass _
  unfold Cursor.next
  generalize c.skipGap = c at hskip
  generalize c'.skipGap = c' at hskip
  unfold readHere
  rw [hskip.rest]
  -- Which lexeme it is, and how long, is a matter of the text alone.
  split
  · exact .ok (Token.relocate_congr rfl rfl hskip.here) hskip
  · split
    · exact .ok (Token.relocate_congr rfl rfl hskip.here) (hskip.pass _)
    · rename_i hmisfit
      refine .error ?_ (hskip.pass _)
      simp only [ParseError.relocate, Lexeme.relocate_cause hmisfit, hskip.here, id]

theorem next_ok {t : Token} {after : Cursor} (h : Moved f c c') (hn : c.next = (.ok t, after)) :
    ∃ t' after', c'.next = (.ok t', after') ∧ t'.relocate id = t.relocate f ∧
      Moved f after after' := by
  have hnext := h.next
  rw [hn] at hnext
  generalize c'.next = out at hnext
  cases hnext with
  | ok ht hafter => exact ⟨_, _, rfl, ht, hafter⟩

theorem next_error {x : ParseError} {stop : Cursor} (h : Moved f c c')
    (hn : c.next = (.error x, stop)) :
    ∃ x' stop', c'.next = (.error x', stop') ∧ x'.relocate id = x.relocate f ∧
      Moved f stop stop' := by
  have hnext := h.next
  rw [hn] at hnext
  generalize c'.next = out at hnext
  cases hnext with
  | error hx hstop => exact ⟨_, _, rfl, hx, hstop⟩

end Cursor.Moved

/-! ## Parses -/

namespace Parser

/-- Verdicts that differ in places only. -/
inductive Verdict.Moved (f : Location → Location) : Verdict → Verdict → Prop
  | accepted {e e' : Expr} {c c' : Cursor} (he : e'.relocate id = e.relocate f)
      (hc : c.Moved f c') : Moved f (.accepted e c c.stream) (.accepted e' c' c'.stream)
  | refused {x x' : ParseError} {c c' : Cursor} (hx : x'.relocate id = x.relocate f)
      (hc : c.Moved f c') : Moved f (.refused x c) (.refused x' c')

theorem Goal.takesBlindly_relocate (f : Location → Location) (g : Goal) :
    (g.relocate f).takesBlindly = g.takesBlindly := by
  cases g <;> rfl

/-- **A run is the same in either place**, by the same law for each of its steps. -/
theorem run_moved {f : Location → Location} (limit : Option Nat) (c c' : Cursor) (s s' : State)
    (h : c.Moved f c') (hs : s'.relocate id = s.relocate f) :
    (run limit s c c.stream).Moved f (run limit s' c' c'.stream) := by
  match hn : c.next with
  | (.error x, stop) =>
    obtain ⟨x', stop', hn', hx, hstop⟩ := h.next_error hn
    have hb : s'.goal.takesBlindly = s.goal.takesBlindly := by
      have hgoal := congrArg (fun s : State => s.goal.takesBlindly) hs
      rwa [State.relocate, State.relocate, Goal.takesBlindly_relocate,
        Goal.takesBlindly_relocate] at hgoal
    rw [run_of_error hn, run_of_error hn', hb]
    refine .refused hx ?_
    split
    · exact hstop
    · exact h
  | (.ok t, after) =>
    obtain ⟨t', after', hn', ht, hafter⟩ := h.next_ok hn
    have hstep : (step limit s' t').relocate id = (step limit s t).relocate f := by
      rw [← step_relocate, ← step_relocate, hs, ht]
    rw [run_eq_follow hn, run_eq_follow hn']
    cases hout : step limit s t with
    | shift s₁ =>
      have hlt := Cursor.length_rest_next_lt hn (kind_ne_of_shift hout)
      rw [hout] at hstep
      obtain ⟨s₁', hout', hs₁⟩ := Outcome.shift_of_relocate hstep
      rw [hout']
      exact run_moved limit after after' s₁ s₁' hafter hs₁
    | accept e =>
      rw [hout] at hstep
      obtain ⟨e', hout', he⟩ := Outcome.accept_of_relocate hstep
      rw [hout']
      exact .accepted he h
    | refuse cause consumed =>
      rw [hout] at hstep
      obtain ⟨cause', hout', hcause⟩ := Outcome.refuse_of_relocate hstep
      rw [hout']
      refine .refused ?_ ?_
      · have hlocation := congrArg Token.location ht
        rw [ParseError.relocate, ParseError.relocate, hcause]
        exact congrArg (ParseError.mk _ · _) hlocation
      · split
        · exact hafter
        · exact h
termination_by c.rest.length

end Parser

/-- What a parse objects to behind an expression is the same. -/
theorem Mode.objection?_moved {f : Location → Location} {c c' : Cursor} (m : Mode)
    (h : c.Moved f c') : (m.objection? c'.stream).map (ParseError.relocate id) =
      (m.objection? c.stream).map (ParseError.relocate f) := by
  cases m with
  | lenient => rfl
  | strict =>
    match hn : c.next with
    | (.error x, stop) =>
      obtain ⟨x', stop', hn', hx, -⟩ := h.next_error hn
      rw [Cursor.stream_of_error hn, Cursor.stream_of_error hn']
      exact congrArg some hx
    | (.ok t, after) =>
      obtain ⟨t', after', hn', ht, -⟩ := h.next_ok hn
      have hk : t'.kind = t.kind := by
        rw [← Token.kind_relocate id, ht, Token.kind_relocate]
      by_cases hend : t.kind = .endOfInput
      · rw [Cursor.stream_of_end hn hend, Cursor.stream_of_end hn' (hk.trans hend)]
        rfl
      · rw [Cursor.stream_of_token hn hend, Cursor.stream_of_token hn' (hk ▸ hend)]
        have hlocation : id t'.location = f t.location := by
          have hstart := congrArg Token.location ht
          exact hstart
        simp only [Mode.objection?, Option.map_some, ParseError.expected, ParseError.relocate,
          Cause.relocate, ht, hlocation]

/-- **A text is parsed the same in either place.** The trees are the same up to their places, the
    errors are the same up to theirs, and the parses stop before the same text. -/
theorem Cursor.Moved.parse {f : Location → Location} {c c' : Cursor} (h : c.Moved f c')
    (o : ParseOptions) :
    MovedResult f (fun e e' => e' = e.relocate f) (c.parse o) (c'.parse o) := by
  have hrun := Parser.run_moved o.limit c c' .initial .initial h rfl
  unfold Cursor.parse
  generalize Parser.run o.limit .initial c c.stream = v at hrun
  generalize Parser.run o.limit .initial c' c'.stream = v' at hrun
  have hpath : ∀ {x x' : ParseError}, x'.relocate id = x.relocate f →
      (x'.attachPath o.path).relocate id = (x.attachPath o.path).relocate f := by
    intro x x' hx
    rw [ParseError.relocate_attachPath, ParseError.relocate_attachPath, hx]
  cases hrun with
  | refused hx hstop => exact .error (hpath hx) hstop
  | accepted he hstop =>
    rename_i e e' stop stop'
    have hobjection := Mode.objection?_moved o.mode hstop
    dsimp only
    cases hm : o.mode.objection? stop.stream <;> cases hm' : o.mode.objection? stop'.stream <;>
      rw [hm, hm'] at hobjection
    · exact .ok (by rw [← he, Expr.relocate_id]) hstop
    · cases hobjection
    · cases hobjection
    · exact .error (hpath (Option.some.inj hobjection)) hstop

end EL
