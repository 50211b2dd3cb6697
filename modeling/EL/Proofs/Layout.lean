import EL.Proofs.Onward
import EL.Proofs.Relocation

/-!
# Layout decides nothing

Blanks, comments and the quotes of strings are between the tokens or around their texts, and so is
the place where a text begins. All that a parser is shown of a token is its *face*, the kind and the
text. So **two texts whose tokens have the same faces are parsed alike** (`parse_layout`): to equal
trees, or to the same error at the token of the same index, and as many tokens are read of the one as
of the other.

The proof compares two runs. A step does not look at places (`step_relocate`), so the runs stay in
states that are equal but for places as long as they are shown the same faces.
-/

set_option autoImplicit false

namespace EL

/-- What a parser decides by. -/
def Token.face (t : Token) : Kind × String := (t.kind, t.text)

theorem Token.bare_eq_iff {t t' : Token} : t'.bare = t.bare ↔ t'.face = t.face := by
  simp [bare, relocate, face]

theorem Token.map_bare_eq_iff {ts ts' : List Token} :
    ts'.map bare = ts.map bare ↔ ts'.map face = ts.map face := by
  induction ts generalizing ts' with
  | nil => simp
  | cons t ts ih => cases ts' <;> simp [bare_eq_iff, ih]

/-! ## Two scans -/

/-- The tokens `t` and `t'` have the same face and stand at the same place among their own. -/
structure Beside (ts ts' us us' : List Token) (t t' : Token) : Prop where
  face : t'.face = t.face
  length : us'.length = us.length
  here : ts[us.length]? = some t
  beside : ts'[us.length]? = some t'

/-- Where a token is read of one text, one with the same face is read of the other, behind a passage
    with the same faces. -/
theorem exists_beside {c c' here after : Cursor} {ts ts' us : List Token} {t : Token}
    (h : c.tokens = .ok ts) (h' : c'.tokens = .ok ts') (hfaces : ts'.map Token.face = ts.map Token.face)
    (hus : c.Reads us here) (hn : here.next = (.ok t, after)) :
    ∃ us' here' t' after', c'.Reads us' here' ∧ here'.next = (.ok t', after') ∧
      us'.map Token.face = us.map Token.face ∧ Beside ts ts' us us' t t' := by
  obtain ⟨vs, hvs⟩ := hus.exists_stream_tokens hn
  rw [(Cursor.stream_of_tokens h).1] at hvs
  subst hvs
  rw [List.map_append, List.map_cons] at hfaces
  obtain ⟨us', ws', rfl, hus', hws'⟩ := List.map_eq_append_iff.mp hfaces
  obtain ⟨t', vs', rfl, ht', -⟩ := List.map_eq_cons_iff.mp hws'
  obtain ⟨here', after', hreads, hn'⟩ := Cursor.exists_reads_of_tokens h'
  have hlength : us'.length = us.length := by simpa using congrArg List.length hus'
  refine ⟨us', here', t', after', hreads, hn', hus', ht', hlength, ?_, ?_⟩
  · simp
  · simp [← hlength]

/-! ## Two runs -/

namespace Parser

/-- Moved tokens lead to the moved state. -/
theorem shifts?_relocate (limit : Option Nat) (f : Location → Location) (s : State)
    (ts : List Token) : shifts? limit (s.relocate f) (ts.map (Token.relocate f)) =
      (shifts? limit s ts).map (State.relocate f) := by
  induction ts generalizing s with
  | nil => rfl
  | cons t ts ih =>
    rw [List.map_cons, shifts?, shifts?, step_relocate]
    cases step limit s t with
    | shift s' => exact ih s'
    | accept e => rfl
    | refuse cause consumed => rfl

section
variable {limit : Option Nat} {c c' here after : Cursor} {ts ts' us : List Token} {t : Token}
  (h : c.tokens = .ok ts) (h' : c'.tokens = .ok ts') (hfaces : ts'.map Token.face = ts.map Token.face)
include h h' hfaces

/-- **The same faces, the same step.** Where the one run comes to a token, the other comes to a token
    with the same face, and the token does the same there but for places. -/
theorem exists_step_beside {s : State} (hus : c.Reads us here) (hn : here.next = (.ok t, after))
    (hs : shifts? limit .initial us = some s) :
    ∃ us' here' t' after' s', c'.Reads us' here' ∧ here'.next = (.ok t', after') ∧
      shifts? limit .initial us' = some s' ∧
      (step limit s' t').relocate (fun _ => .origin) =
        (step limit s t).relocate (fun _ => .origin) ∧
      Beside ts ts' us us' t t' := by
  obtain ⟨us', here', t', after', hreads, hn', hus', hb⟩ := exists_beside h h' hfaces hus hn
  have hbare := congrArg (shifts? limit .initial) (Token.map_bare_eq_iff.mpr hus')
  have hmoved := shifts?_relocate limit (fun _ => .origin) .initial
  rw [show State.initial.relocate (fun _ => .origin) = .initial from rfl] at hmoved
  unfold Token.bare at hbare
  rw [hmoved, hmoved, hs, Option.map_some, Option.map_eq_some_iff] at hbare
  obtain ⟨s', hs', hstate⟩ := hbare
  have ht' : t'.relocate (fun _ => Location.origin) = t.relocate fun _ => .origin :=
    Token.bare_eq_iff.mpr hb.face
  refine ⟨us', here', t', after', s', hreads, hn', hs', ?_, hb⟩
  rw [← step_relocate, ← step_relocate, hstate, ht']

theorem Accepts.beside {e : Expr} (ha : Accepts limit .initial c e us here t after) :
    ∃ e' us' here' t' after', Accepts limit .initial c' e' us' here' t' after' ∧
      e'.bare = e.bare ∧ Beside ts ts' us us' t t' := by
  obtain ⟨s, hs, hstep⟩ := ha.step
  obtain ⟨us', here', t', after', s', hus', hn', hs', hstep', hb⟩ :=
    exists_step_beside h h' hfaces ha.reads ha.next hs
  rw [hstep] at hstep'
  obtain ⟨e', hout, he⟩ := Outcome.accept_of_relocate hstep'
  exact ⟨e', us', here', t', after', ⟨hus', hn', s', hs', hout⟩, he, hb⟩

theorem Refuses.beside {cause : Cause} {consumed : Bool}
    (hr : Refuses limit .initial c cause consumed us here t after) :
    ∃ cause' us' here' t' after', Refuses limit .initial c' cause' consumed us' here' t' after' ∧
      cause'.relocate (fun _ => .origin) = cause.relocate (fun _ => .origin) ∧
      Beside ts ts' us us' t t' := by
  obtain ⟨s, hs, hstep⟩ := hr.step
  obtain ⟨us', here', t', after', s', hus', hn', hs', hstep', hb⟩ :=
    exists_step_beside h h' hfaces hr.reads hr.next hs
  rw [hstep] at hstep'
  obtain ⟨cause', hout, hcause⟩ := Outcome.refuse_of_relocate hstep'
  exact ⟨cause', us', here', t', after', ⟨hus', hn', s', hs', hout⟩, hcause, hb⟩

end

end Parser

/-! ## Two parses -/

/-- Equal trees, or the same error at tokens of the same index. -/
inductive Alike (ts ts' : List Token) :
    Except ParseError Expr → Except ParseError Expr → Prop where
  | tree {e e' : Expr} (he : e.same e' = true) : Alike ts ts' (.ok e) (.ok e')
  | error {x x' : ParseError} {i : Nat} {t t' : Token} (hstage : x'.stage = x.stage)
      (hmessage : x'.message = x.message) (hpath : x'.path = x.path) (ht : ts[i]? = some t)
      (hx : x.location = t.location) (ht' : ts'[i]? = some t') (hx' : x'.location = t'.location) :
      Alike ts ts' (.error x) (.error x')

theorem Beside.alike {ts ts' us us' : List Token} {t t' : Token} {cause cause' : Cause}
    (hb : Beside ts ts' us us' t t')
    (hcause : cause'.relocate (fun _ => .origin) = cause.relocate fun _ => .origin)
    (path : Option String) :
    Alike ts ts' (.error ((⟨cause, t.location, none⟩ : ParseError).attachPath path))
      (.error ((⟨cause', t'.location, none⟩ : ParseError).attachPath path)) := by
  refine .error ?_ ?_ ?_ hb.here ?_ hb.beside ?_
  · rw [ParseError.stage_attachPath, ParseError.stage_attachPath]
    exact Cause.stage_of_relocate hcause
  · rw [ParseError.message_attachPath, ParseError.message_attachPath]
    exact Cause.message_of_relocate hcause
  · simp [ParseError.path_attachPath]
  · simp
  · simp

open EL.Parser in
/-- **Texts whose tokens have the same faces are parsed alike**, wherever they begin: in either mode and
    with any limit, both parses return equal trees, or both fail with the same error at the token of
    the same index, and both stop behind the same number of tokens. -/
theorem parse_layout (text text' : String) (l l' : Location) (o : ParseOptions)
    {ts ts' : List Token} (h : (Cursor.ofText text l).tokens = .ok ts)
    (h' : (Cursor.ofText text' l').tokens = .ok ts')
    (hfaces : ts'.map Token.face = ts.map Token.face) :
    Alike ts ts' ((Cursor.ofText text l).parse o).1 ((Cursor.ofText text' l').parse o).1 ∧
      ∃ n ≤ ts.length, ((Cursor.ofText text l).parse o).2 = (Cursor.ofText text l).forward n ∧
        ((Cursor.ofText text' l').parse o).2 = (Cursor.ofText text' l').forward n := by
  obtain ⟨mode, path, limit⟩ := o
  have hindex : ∀ {us us' : List Token} {t t' : Token}, Beside ts ts' us us' t t' →
      us.length < ts.length := by
    intro us us' t t' hb
    exact (List.getElem?_eq_some_iff.mp hb.here).1
  cases run_ends limit .initial (Cursor.ofText text l) with
  | breaks hbreaks =>
    -- Both texts can be scanned to their ends.
    rw [hbreaks.reads.tokens_of_error hbreaks.next] at h
    cases h
  | @refuses cause consumed us here t after hr =>
    obtain ⟨cause', us', here', t', after', hr', hcause, hb⟩ := hr.beside h h' hfaces
    rw [hr.parse, hr'.parse]
    refine ⟨hb.alike hcause path, ?_⟩
    cases consumed with
    | false =>
      refine ⟨us.length, (hindex hb).le, hr.reads.forward_length.symm, ?_⟩
      rw [← hb.length]
      exact hr'.reads.forward_length.symm
    | true =>
      refine ⟨us.length + 1, hindex hb, (hr.reads.forward_length_succ hr.next).symm, ?_⟩
      rw [← hb.length]
      exact (hr'.reads.forward_length_succ hr'.next).symm
  | @accepts e us here t after ha =>
    obtain ⟨e', us', here', t', after', ha', he, hb⟩ := ha.beside h h' hfaces
    have htree : e.same e' = true := by
      rw [Expr.same_congr_bare he]
      exact same_of_parse (ha.parse_lenient none)
    refine ⟨?_, us.length, (hindex hb).le, ?_, ?_⟩
    · cases mode with
      | lenient =>
        rw [ha.parse_lenient, ha'.parse_lenient]
        exact .tree htree
      | strict =>
        have hkind : t'.kind = t.kind := congrArg Prod.fst hb.face
        rw [ha.parse_strict, ha'.parse_strict, hkind]
        split
        · exact .tree htree
        · refine hb.alike ?_ path
          exact congrArg (Cause.expected _) (Token.bare_eq_iff.mpr hb.face)
    · rw [ha.parse_stop, ha.reads.forward_length]
    · rw [ha'.parse_stop, ← hb.length, ha'.reads.forward_length]

theorem parse_layout_comment :
    (Cursor.ofText "'a'").tokens =
        .ok [⟨.string, "a", ⟨0, ⟨1, 1⟩⟩⟩, ⟨.endOfInput, "", ⟨3, ⟨1, 4⟩⟩⟩] ∧
      (Cursor.ofText "// b\n\"a\"" ⟨3, 7⟩).tokens =
        .ok [⟨.string, "a", ⟨5, ⟨4, 1⟩⟩⟩, ⟨.endOfInput, "", ⟨8, ⟨4, 4⟩⟩⟩] ∧
      Alike [⟨.string, "a", ⟨0, ⟨1, 1⟩⟩⟩, ⟨.endOfInput, "", ⟨3, ⟨1, 4⟩⟩⟩]
        [⟨.string, "a", ⟨5, ⟨4, 1⟩⟩⟩, ⟨.endOfInput, "", ⟨8, ⟨4, 4⟩⟩⟩]
        ((Cursor.ofText "'a'").parse {}).1 ((Cursor.ofText "// b\n\"a\"" ⟨3, 7⟩).parse {}).1 := by
  have h := Cursor.tokens_of_scanWithin (c := Cursor.ofText "'a'") 2 rfl
  have h' := Cursor.tokens_of_scanWithin (c := Cursor.ofText "// b\n\"a\"" ⟨3, 7⟩) 2 rfl
  exact ⟨h, h', (parse_layout _ _ _ _ {} h h' rfl).1⟩

end EL
