import EL.Proofs.RoundTrip
import EL.Proofs.Verdicts

/-!
# Lenient parses, and what follows an expression

A lenient parse leaves what follows the expression to the host, and differs from a strict one in
nothing else: **a strict parse is the lenient one, and then the end of input**
(`parse_strict_lenient`).

What a lenient parse takes is a passage of the text, and the passage by itself is accepted. Nothing
longer is, because the token behind the passage has ended the expression, and a parser does not look
at anything twice.

The token behind the passage has to be one, though. *What follows is looked at before it is ignored*,
and if no token can be read there the parse fails (`parseLenient_append`).
-/

set_option autoImplicit false

namespace EL

namespace Parser

/-! ## Where an expression can end -/

section
variable {limit : Option Nat} {t u : Token} {c : Chain} {σ : List Frame} {e x : Expr}

theorem beginOperand_ne_accept : beginOperand limit c σ t ≠ .accept e := by
  intro h
  unfold beginOperand at h
  split at h
  · cases h
  · rename_i out hout
    have hne : out ≠ .accept e := fun heq => beginOperand?_ne_accept (heq ▸ hout)
    split at h
    · split at h
      · cases h
      · exact hne h
    · exact hne h

theorem beginExpression_ne_accept : beginExpression limit c σ t ≠ .accept e := by
  intro h
  unfold beginExpression at h
  split at h
  · cases h
  · exact beginOperand_ne_accept h

theorem beginItem_ne_accept {l : Listing} : beginItem limit l c σ t ≠ .accept e := by
  intro h
  unfold beginItem at h
  split at h
  · cases h
  · exact beginExpression_ne_accept h

theorem separate_ne_accept {l : Listing} : separate l c σ t ≠ .accept e := by
  intro h
  unfold separate need at h
  split at h
  · cases h
  · split at h <;> cases h

theorem endItem_ne_accept {l : Listing} {bound : Bound} : endItem l bound x c σ t ≠ .accept e := by
  intro h
  unfold endItem at h
  split at h
  · cases h
  · cases h
  · exact separate_ne_accept h

theorem readKey_ne_accept {m : Entries} : readKey m c σ t ≠ .accept e := by
  intro h
  unfold readKey at h
  split at h <;> cases h

theorem endValue_ne_accept {m : Entries} {key : String} :
    endValue m key x c σ t ≠ .accept e := by
  intro h
  unfold endValue at h
  dsimp only at h
  split at h <;> cases h

/-- An expression ends with the parentheses that are closed, and with no others. -/
theorem leave_accept (hu : u.kind ≠ .openBracket) : ∀ (σ : List Frame) (x : Expr),
    leave t x σ = .accept e → leave u x σ = .accept e
  | [], _, h => h
  | ⟨.closedGroup, outer⟩ :: σ, x, h => by
    rw [leave] at h ⊢
    rw [if_neg hu]
    split at h
    · cases h
    · exact leave_accept hu σ _ h
  | ⟨.group loc asOperand, outer⟩ :: σ, x, h => by
    rw [leave] at h
    split at h <;> cases h
  | ⟨.item l bound, outer⟩ :: σ, x, h => absurd h endItem_ne_accept
  | ⟨.value m key, outer⟩ :: σ, x, h => absurd h endValue_ne_accept

theorem afterOperand_accept (hop : BinaryOp.ofKind? u.kind = none) (hu : u.kind ≠ .openBracket)
    (h : afterOperand x c σ t = .accept e) : afterOperand x c σ u = .accept e := by
  unfold afterOperand at h ⊢
  rw [hop]
  split at h
  · cases h
  · exact leave_accept hu σ x h

/-- An expression ends behind an operand, or behind what could be one. -/
theorem goal_of_accept {s : State} (h : step limit s t = .accept e) :
    ∃ x, s.goal = .afterSimple x ∨ s.goal = .afterOperand x := by
  obtain ⟨goal, c, σ⟩ := s
  cases goal with
  | expression => exact absurd h beginExpression_ne_accept
  | operand => exact absurd h beginOperand_ne_accept
  | afterSimple x => exact ⟨x, .inl rfl⟩
  | afterOperand x => exact ⟨x, .inr rfl⟩
  | firstItem l =>
    simp only [step] at h
    split at h
    · cases h
    · split at h
      · split at h
        · exact absurd h beginItem_ne_accept
        · cases h
      · exact absurd h beginItem_ne_accept
  | item l => exact absurd h beginItem_ne_accept
  | upperBound l x loc =>
    simp only [step] at h
    split at h
    · exact absurd h beginExpression_ne_accept
    · exact absurd h separate_ne_accept
  | firstKey m =>
    simp only [step] at h
    split at h
    · cases h
    · exact absurd h readKey_ne_accept
  | key m => exact absurd h readKey_ne_accept
  | colon m key =>
    simp only [step] at h
    split at h <;> cases h

/-- **Where an expression ends, it ends before every token that cannot continue it.** -/
theorem step_accept {s : State} (hop : BinaryOp.ofKind? u.kind = none)
    (hu : u.kind ≠ .openBracket) (h : step limit s t = .accept e) :
    step limit s u = .accept e := by
  obtain ⟨x, hgoal⟩ := goal_of_accept h
  obtain ⟨goal, c, σ⟩ := s
  rcases hgoal with hgoal | hgoal
  · obtain rfl : goal = .afterSimple x := hgoal
    show afterSimple x c σ u = _
    rw [show step limit ⟨.afterSimple x, c, σ⟩ t = afterSimple x c σ t from rfl] at h
    unfold afterSimple at h ⊢
    rw [if_neg hu]
    split at h
    · cases h
    · exact afterOperand_accept hop hu h
  · obtain rfl : goal = .afterOperand x := hgoal
    exact afterOperand_accept hop hu h

/-- Where an expression could end, an opening bracket goes on with it or ends it. -/
theorem leave_openBracket (hu : u.kind = .openBracket) (x : Expr) : ∀ σ : List Frame,
    leave t x σ = .accept e → (∃ s', leave u x σ = .shift s') ∨ leave u x σ = .accept e
  | [], h => .inr h
  | ⟨.closedGroup, outer⟩ :: σ, _ => .inl ⟨_, by rw [leave, if_pos hu]; rfl⟩
  | ⟨.group loc asOperand, outer⟩ :: σ, h => by
    rw [leave] at h
    split at h <;> cases h
  | ⟨.item l bound, outer⟩ :: σ, h => absurd h endItem_ne_accept
  | ⟨.value m key, outer⟩ :: σ, h => absurd h endValue_ne_accept

theorem step_openBracket {s : State} (hu : u.kind = .openBracket)
    (h : step limit s t = .accept e) :
    (∃ s', step limit s u = .shift s') ∨ step limit s u = .accept e := by
  obtain ⟨x, hgoal⟩ := goal_of_accept h
  obtain ⟨goal, c, σ⟩ := s
  rcases hgoal with hgoal | hgoal
  · obtain rfl : goal = .afterSimple x := hgoal
    exact .inl ⟨_, step_openIndex hu⟩
  · obtain rfl : goal = .afterOperand x := hgoal
    have hop : BinaryOp.ofKind? u.kind = none := by rw [hu]; rfl
    rw [step_leave hop]
    have hleave : leave t x σ = .accept e := by
      have hafter : afterOperand x c σ t = .accept e := h
      unfold afterOperand at hafter
      split at hafter
      · cases hafter
      · exact hafter
    exact leave_openBracket hu x σ hleave

theorem step_accept_endOfInput {s : State} (hu : u.kind = .endOfInput)
    (h : step limit s t = .accept e) : step limit s u = .accept e :=
  step_accept (by rw [hu]; rfl) (by simp [hu]) h

end

section
variable {limit : Option Nat} {s : State} {e : Expr} {ts us : List Token}
  {c stop after : Cursor} {t : Token}

theorem Accepts.ne_nil (h : Accepts limit .initial c e ts stop t after) : ts ≠ [] := by
  rintro rfl
  obtain ⟨s', hs, ha⟩ := h.step
  cases hs
  exact beginExpression_ne_accept ha

/-! ## A passage by itself -/

/-- **What was accepted is accepted by itself**, without the text after it. -/
theorem Accepts.alone (h : Accepts limit s c e ts stop t after) :
    ∃ p u, c.rest = p ++ stop.rest ∧ stop.position = c.position.advance p ∧
      u.kind = .endOfInput ∧
      Accepts limit s ⟨p, c.position⟩ e ts ⟨[], stop.position⟩ u ⟨[], stop.position⟩ := by
  obtain ⟨p, hp, hstop, hreads⟩ := h.reads.replace (.nil _) (fun _ _ _ => rfl)
  rw [List.append_nil] at hreads
  obtain ⟨s', hs, ha⟩ := h.step
  have hnext := Cursor.next_of_gap (c := ⟨[], stop.position⟩) rfl
  exact ⟨p, _, hp, hstop, rfl, hreads, hnext, s', hs, step_accept_endOfInput rfl ha⟩

/-- **No longer passage is read as one expression**: the token behind the accepted one has ended
    it. -/
theorem Accepts.read?_longer {later : Cursor} (h : Accepts limit s c e ts stop t after)
    (hus : stop.Reads us later) (hne : us ≠ []) (vs : List Token) :
    read? limit s (ts ++ us ++ vs) = none := by
  obtain ⟨s', hs, ha⟩ := h.step
  cases hus with
  | nil => exact absurd rfl hne
  | cons hn hk _ =>
    cases h.next.symm.trans hn
    rw [List.append_assoc, read?_of_shifts? hs, List.cons_append, read?, ha]
    exact if_neg hk

/-! ## Both modes -/

theorem Accepts.parse_lenient (h : Accepts limit .initial c e ts stop t after)
    (path : Option String) : c.parse ⟨.lenient, path, limit⟩ = (.ok e, stop) := by
  rw [Cursor.parse, h.run]
  rfl

theorem Accepts.parse_strict (h : Accepts limit .initial c e ts stop t after)
    (path : Option String) : c.parse ⟨.strict, path, limit⟩ =
      if t.kind = .endOfInput then (.ok e, stop)
      else (.error ((ParseError.expected {.endOfInput} t).attachPath path), stop) := by
  rw [Cursor.parse, h.run]
  by_cases ht : t.kind = .endOfInput
  · rw [if_pos ht, Cursor.stream_of_end h.next ht]
    rfl
  · rw [if_neg ht, Cursor.stream_of_token h.next ht]
    rfl

theorem Accepts.parse_stop (h : Accepts limit .initial c e ts stop t after) (mode : Mode)
    (path : Option String) : (c.parse ⟨mode, path, limit⟩).2 = stop := by
  cases mode with
  | lenient => rw [h.parse_lenient]
  | strict =>
    rw [h.parse_strict]
    split <;> rfl

theorem Refuses.parse {cause : Cause} {consumed : Bool} {here : Cursor}
    (h : Refuses limit .initial c cause consumed ts here t after) (mode : Mode)
    (path : Option String) : c.parse ⟨mode, path, limit⟩ =
      (.error ((⟨cause, t.location, none⟩ : ParseError).attachPath path),
        if consumed then after else here) := by
  rw [Cursor.parse, h.run]
  rfl

theorem Breaks.parse {x : ParseError} {here : Cursor} {s' : State}
    (h : Breaks limit .initial c x ts here stop s') (mode : Mode) (path : Option String) :
    c.parse ⟨mode, path, limit⟩ =
      (.error (x.attachPath path), if s'.goal.takesBlindly then stop else here) := by
  rw [Cursor.parse, h.run]

end

theorem exists_accepts_of_parse {c stop : Cursor} {o : ParseOptions} {e : Expr}
    (h : c.parse o = (.ok e, stop)) :
    ∃ ts t after, Accepts o.limit .initial c e ts stop t after := by
  unfold Cursor.parse at h
  split at h
  · cases h
  · rename_i hrun
    split at h <;> cases h
    exact exists_accepts c hrun

end Parser

open EL.Parser

theorem parse_strict_of_lenient_error {c stop : Cursor} {path : Option String}
    {limit : Option Nat} {x : ParseError}
    (h : c.parse ⟨.lenient, path, limit⟩ = (.error x, stop)) :
    c.parse ⟨.strict, path, limit⟩ = (.error x, stop) := by
  unfold Cursor.parse at h ⊢
  split at h
  · rename_i hrun
    rw [hrun]
    exact h
  · cases h

/-- What is accepted is derived from the tokens that were read. -/
theorem Parser.Accepts.derives {limit : Option Nat} {c stop after : Cursor} {e : Expr}
    {ts : List Token} {t : Token} (h : Accepts limit .initial c e ts stop t after) :
    Grammar.Derives .longest limit 0 (.expression e) ts .endOfInput := by
  obtain ⟨p, u, -, -, hu, halone⟩ := h.alone
  obtain ⟨s', hs, ha⟩ := halone.step
  refine (Grammar.read?_iff_derives hu h.reads.kind_ne).mp ?_
  rw [read?_of_shifts? hs, read?, ha]
  exact if_pos hu

/-- Every tree that is parsed, in whatever mode, is derived from the tokens of some text. -/
theorem exists_derives_of_parse {c stop : Cursor} {o : ParseOptions} {e : Expr}
    (h : c.parse o = (.ok e, stop)) : ∃ (c' : Cursor) (ts : List Token), c'.Scans ts ∧
      Grammar.Derives .longest o.limit 0 (.expression e) ts .endOfInput := by
  obtain ⟨ts, t, after, ha⟩ := exists_accepts_of_parse h
  obtain ⟨p, u, -, -, hu, halone⟩ := ha.alone
  have hend := Cursor.tokens_of_end halone.next hu
  exact ⟨_, ts, ⟨u, halone.reads.tokens_ok_iff.mpr ⟨_, hend, rfl⟩, hu⟩, ha.derives⟩

/-- A tree that is parsed is equal to itself, as no number in it fails to be. -/
theorem same_of_parse {c stop : Cursor} {o : ParseOptions} {e : Expr}
    (h : c.parse o = (.ok e, stop)) : e.same e = true := by
  obtain ⟨c', ts, hscans, hd⟩ := exists_derives_of_parse h
  have hprintable := hd.printable (Cursor.isName_of_scans hscans)
  exact Expr.same_refl e (hprintable.imp fun _ => Expr.Printable.selfSame)

/-- **A strict parse is the lenient one, and then the end of input.** Where the lenient parse fails
    the strict one does, in the same way. Where it returns a tree, it has read a passage of tokens,
    and another token can be read behind it: the strict parse returns the tree too if that is the end
    of input, and otherwise refuses that token. The passage by itself is read strictly as the tree,
    and no longer passage is read strictly at all. -/
theorem parse_strict_lenient (text : String) (l : Location) (path : Option String)
    (limit : Option Nat) :
    (∀ x stop, (Cursor.ofText text l).parse ⟨.lenient, path, limit⟩ = (.error x, stop) →
      (Cursor.ofText text l).parse ⟨.strict, path, limit⟩ = (.error x, stop)) ∧
    ∀ e stop, (Cursor.ofText text l).parse ⟨.lenient, path, limit⟩ = (.ok e, stop) →
      (∃ ts, ts ≠ [] ∧ (Cursor.ofText text l).Reads ts stop) ∧
      (∃ t after, stop.next = (.ok t, after) ∧
        (t.kind = .endOfInput →
          (Cursor.ofText text l).parse ⟨.strict, path, limit⟩ = (.ok e, stop)) ∧
        (t.kind ≠ .endOfInput →
          ∃ x, (Cursor.ofText text l).parse ⟨.strict, path, limit⟩ = (.error x, stop) ∧
            x.stage = .syntactic ∧ x.location = t.location ∧ x.path = path ∧
            x.message = s!"Expected end of file, but got {t.kind.describe} (raw data: '{t.text}')")) ∧
      (∃ p, text = p ++ stop.remainder ∧ byteLength p.toList = stop.offset ∧
        (Cursor.ofText p l).parse ⟨.strict, path, limit⟩ = (.ok e, ⟨[], stop.position⟩) ∧
        e.same e = true) ∧
      ∀ us later q, us ≠ [] → stop.Reads us later → text = q ++ later.remainder →
        ∀ e', ((Cursor.ofText q l).parse ⟨.strict, path, limit⟩).1 ≠ .ok e' := by
  refine ⟨fun x stop h => parse_strict_of_lenient_error h, fun e stop h => ?_⟩
  -- The lenient parse is a passage that was accepted before `t`, and `t` is all that a strict one sees
  -- in addition.
  obtain ⟨ts, t, after, ha⟩ := exists_accepts_of_parse h
  refine ⟨⟨ts, ha.ne_nil, ha.reads⟩, ⟨t, after, ha.next, fun ht => ?_, fun ht => ?_⟩, ?_, ?_⟩
  · rw [ha.parse_strict, if_pos ht]
  · rw [ha.parse_strict, if_neg ht]
    refine ⟨_, rfl, ?_⟩
    cases path <;> exact ⟨rfl, rfl, rfl, rfl⟩
  · obtain ⟨p, u, hp, hstop, hu, halone⟩ := ha.alone
    have hparse := halone.parse_strict path
    rw [if_pos hu] at hparse
    refine ⟨String.ofList p, ?_, ?_, ?_, same_of_parse h⟩
    · rw [Cursor.remainder, ← String.ofList_append, ← hp]
      exact String.ofList_toList.symm
    · rw [String.toList_ofList, Cursor.offset, hstop]
      exact (Nat.zero_add _).symm
    · rw [Cursor.ofText, String.toList_ofList]
      exact hparse
  · intro us later q hne hus hq e' he'
    obtain ⟨q', hq', -, hreads⟩ := (ha.reads.append hus).replace (.nil _) (fun _ _ _ => rfl)
    obtain rfl : q.toList = q' := by
      have hsplit : text.toList = q.toList ++ later.rest := by
        rw [hq, String.toList_append, Cursor.remainder, String.toList_ofList]
      exact List.append_cancel_right (hsplit.symm.trans hq')
    rw [List.append_nil] at hreads
    -- The tokens of the longer text are those of the passage and more, which no run accepts.
    obtain ⟨vs, hvs, hread⟩ := parse_strict_iff.mp he'
    rw [Cursor.ofText, Cursor.start] at hvs
    have hend := Cursor.tokens_of_end (Cursor.next_of_gap (c := ⟨[], later.position⟩) rfl) rfl
    have htokens := hreads.tokens
    rw [hend] at htokens
    obtain rfl := Except.ok.inj (hvs.symm.trans htokens)
    rw [ha.read?_longer hus hne] at hread
    cases hread

/-! ## Lines behind an expression -/

theorem Cursor.exists_peek {c c' : Cursor} {t : Token} (h : c.rest = c'.rest)
    (hp : c.peek = .ok t) : ∃ t', c'.peek = .ok t' ∧ t'.kind = t.kind := by
  obtain ⟨after, hn⟩ : ∃ after, c.next = (.ok t, after) := ⟨c.next.2, Prod.ext hp rfl⟩
  by_cases ht : t.kind = .endOfInput
  · obtain ⟨hgap, -, -⟩ := next_eq_end hn ht
    rw [h] at hgap
    exact ⟨_, congrArg Prod.fst (next_of_gap hgap), ht.symm⟩
  · obtain ⟨g, x, hx, rfl, -⟩ := exists_of_next hn ht
    rw [h] at hx
    exact ⟨_, congrArg Prod.fst (next_of_beginsWith hx), rfl⟩

/-- After a gap, what is read is what the next line begins with. -/
theorem Cursor.next_newLine {g : List Char} (hg : gap g = g) (r : List Char) (p : Position) :
    (⟨g ++ '\n' :: r, p⟩ : Cursor).next = (⟨'\n' :: r, p.advance g⟩ : Cursor).next := by
  have hskip : (⟨g ++ '\n' :: r, p⟩ : Cursor).skipGap =
      (⟨'\n' :: r, p.advance g⟩ : Cursor).skipGap := by
    have hgap : gap (g ++ '\n' :: r) = g ++ gap ('\n' :: r) := gapFrom_newLine hg r
    simp only [skipGap, pass, hgap, Position.advance_append, List.length_append, List.drop_append]
    simp
  rw [next, next, hskip]

theorem beginsWithPoint_newLine {g : List Char} (hg : gap g = g) (r : List Char) :
    beginsWithPoint (g ++ '\n' :: r) = false := by
  cases g with
  | nil => exact beginsWithPoint_blank rfl r
  | cons c g =>
    rw [Bool.eq_false_iff]
    intro h
    obtain ⟨s, hs, -⟩ := exists_of_beginsWithPoint h
    -- A gap does not begin with a point.
    obtain ⟨rfl, -⟩ := List.cons.inj hs
    cases hg

/-- **What follows an expression is looked at before it is ignored.** With other lines behind it, an
    expression is still the one that a lenient parse returns, unless what comes first there continues
    it — or is no token, and then the parse fails as reading that token does. -/
theorem parseLenient_append {text rest : String} {e : Expr} (h : parseStrict text = .ok e)
    (hline : rest.toList.head? = some '\n')
    (hnext : ∀ t, (Cursor.ofText rest).peek = .ok t →
      t.kind ∉ TokenSet.chaining ∧ t.kind ≠ .openBracket) :
    parseLenient (text ++ rest) =
      ((Cursor.ofText (text ++ rest)).pass text.toList).peek.map fun _ => e := by
  obtain ⟨stop, hparse⟩ : ∃ stop, (Cursor.ofText text).parse {} = (.ok e, stop) :=
    ⟨_, Prod.ext h rfl⟩
  obtain ⟨ts, t, after, ha⟩ := exists_accepts_of_parse hparse
  have ht : t.kind = .endOfInput := by
    by_contra ht
    rw [ha.parse_strict none, if_neg ht] at hparse
    cases hparse
  obtain ⟨hgap, -, -⟩ := Cursor.next_eq_end ha.next ht
  obtain ⟨r, hr⟩ := List.head?_eq_some_iff.mp hline
  -- The tokens of the expression are read again in front of the new lines,
  obtain ⟨p, hp, hstop, hreads⟩ := ha.reads.replace (.newLine stop.rest r)
    (fun _ _ _ => beginsWithPoint_newLine hgap r)
  have htext : text.toList = p ++ stop.rest := hp
  have hstart : (⟨p ++ (stop.rest ++ '\n' :: r), (Cursor.ofText text).position⟩ : Cursor) =
      Cursor.ofText (text ++ rest) := by
    have hboth : (text ++ rest).toList = p ++ (stop.rest ++ '\n' :: r) := by
      rw [String.toList_append, hr, htext, List.append_assoc]
    rw [← hboth]
    rfl
  rw [hstart] at hreads
  -- and then what is read is what the lines begin with.
  have hlines : (Cursor.ofText (text ++ rest)).pass text.toList =
      ⟨'\n' :: r, stop.position.advance stop.rest⟩ := by
    rw [← hstart, Cursor.pass, ← List.append_assoc, htext, List.drop_left,
      Position.advance_append, ← hstop]
  have hnext' := Cursor.next_newLine hgap r stop.position
  rw [← hlines] at hnext'
  obtain ⟨s, hs, haccept⟩ := ha.step
  rcases hlook : ((Cursor.ofText (text ++ rest)).pass text.toList).next with ⟨x | u, after'⟩
  · have hrun := run_of_shifts? hreads hs
    rw [Cursor.stream_of_error (hnext'.trans hlook), run] at hrun
    rw [parseLenient, Cursor.parse, hrun, Cursor.peek, hlook]
    rfl
  · have hrest : ((Cursor.ofText (text ++ rest)).pass text.toList).rest =
        (Cursor.ofText rest).rest := by rw [hlines]; exact hr.symm
    obtain ⟨u', hu', hkind⟩ := Cursor.exists_peek hrest (congrArg Prod.fst hlook)
    obtain ⟨hop, hbracket⟩ := hnext u' hu'
    rw [hkind] at hop hbracket
    rw [← BinaryOp.ofKind?_eq_none_iff] at hop
    have ha' : Accepts none .initial (Cursor.ofText (text ++ rest)) e ts _ u after' :=
      ⟨hreads, hnext'.trans hlook, s, hs, step_accept hop hbracket haccept⟩
    rw [parseLenient, ha'.parse_lenient none, Cursor.peek, hlook]
    rfl

theorem parseLenient_append_token :
    parseLenient ("x" ++ "\n] and so on") = .ok (.var "x" ⟨1, 1⟩) := by
  have h : parseStrict "x" = .ok (.var "x" ⟨1, 1⟩) :=
    parseStrict_eq_ok_iff.mpr ⟨_, Cursor.tokens_of_scanWithin 2 rfl, rfl⟩
  have hpeek : (Cursor.ofText "\n] and so on").peek =
      .ok ⟨.closeBracket, "]", ⟨1, ⟨2, 1⟩⟩⟩ := rfl
  rw [parseLenient_append h rfl fun t ht => ?_]
  · rfl
  · rw [hpeek] at ht
    cases ht
    decide

/-- A host whose lines begin with a character that is in no token cannot be followed. -/
theorem not_all_parseLenient_append : ¬ ∀ text rest e, parseStrict text = .ok e →
    rest.toList.head? = some '\n' →
    (∀ t, (Cursor.ofText rest).peek = .ok t →
      t.kind ∉ TokenSet.chaining ∧ t.kind ≠ .openBracket) →
    ∃ e', parseLenient (text ++ rest) = .ok e' ∧ e.same e' = true := by
  intro hall
  have h : parseStrict "x" = .ok (.var "x" ⟨1, 1⟩) :=
    parseStrict_eq_ok_iff.mpr ⟨_, Cursor.tokens_of_scanWithin 2 rfl, rfl⟩
  have hpeek : (Cursor.ofText "\n#").peek =
      .error ⟨.unexpectedCharacter '#', ⟨2, 1⟩, none⟩ := rfl
  obtain ⟨e', he', -⟩ := hall "x" "\n#" _ h rfl (by rw [hpeek]; exact nofun)
  have hreads : (Cursor.ofText ("x" ++ "\n#")).Reads [⟨.name, "x", ⟨0, ⟨1, 1⟩⟩⟩]
      ⟨['\n', '#'], ⟨1, ⟨1, 2⟩⟩⟩ := .cons rfl (by decide) (.nil _)
  have hrun := run_of_shifts? hreads (show shifts? none .initial _ = some _ from rfl)
  have hbroken : (⟨['\n', '#'], ⟨1, ⟨1, 2⟩⟩⟩ : Cursor).next =
      (.error ⟨.unexpectedCharacter '#', ⟨2, 1⟩, none⟩, ⟨['#'], ⟨2, ⟨2, 1⟩⟩⟩) := rfl
  rw [Cursor.stream_of_error hbroken, run] at hrun
  rw [parseLenient, Cursor.parse, hrun] at he'
  cases he'

end EL
