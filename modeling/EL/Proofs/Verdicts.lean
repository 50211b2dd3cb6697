import EL.Proofs.Passages

/-!
# What becomes of a run

A run takes one token after the other, and `follow` is what it comes to by what the next token does.
So **a run along a text is a chain of steps along its tokens** (`run_eq_follow`), and it needs the
text no more than to find them. There are three ways for it to end, each of them behind a passage whose
tokens are all shifted (`run_ends`): one more token ends the expression, or it is refused, or no token
can be read there.
-/

set_option autoImplicit false

namespace EL

namespace Parser

/-! ## Token by token -/

/-- How a run ends that has come to a token, by what the token does. -/
def follow (limit : Option Nat) (t : Token) (here after : Cursor) : Outcome → Verdict
  | .shift s => run limit s after after.stream
  | .accept e => .accepted e here here.stream
  | .refuse cause consumed => refusal cause t (if consumed then after else here)

theorem kind_ne_of_shift {limit : Option Nat} {s s' : State} {t : Token}
    (h : step limit s t = .shift s') : t.kind ≠ .endOfInput := by
  intro ht
  have hfinal := isFinal_step ht limit s
  rw [h] at hfinal
  cases hfinal

theorem run_eq_follow {limit : Option Nat} {here after : Cursor} {t : Token}
    (hn : here.next = (.ok t, after)) (s : State) :
    run limit s here here.stream = follow limit t here after (step limit s t) := by
  by_cases ht : t.kind = .endOfInput
  · rw [Cursor.stream_of_end hn ht, run]
    cases hs : step limit s t with
    | shift s' => exact absurd ht (kind_ne_of_shift hs)
    | accept e => simp only [follow, Cursor.stream_of_end hn ht]
    | refuse cause consumed => rfl
  · rw [Cursor.stream_of_token hn ht, run]
    cases hs : step limit s t with
    | shift s' => rfl
    | accept e => simp only [follow, Cursor.stream_of_token hn ht]
    | refuse cause consumed => rfl

theorem run_of_error {limit : Option Nat} {here stop : Cursor} {x : ParseError}
    (hn : here.next = (.error x, stop)) (s : State) :
    run limit s here here.stream = .refused x (if s.goal.takesBlindly then stop else here) := by
  rw [Cursor.stream_of_error hn, run]

/-! ## Along a passage -/

/-- The state after tokens that all belong to the expression. -/
def shifts? (limit : Option Nat) (s : State) : List Token → Option State
  | [] => some s
  | t :: ts =>
    match step limit s t with
    | .shift s' => shifts? limit s' ts
    | _ => none

section
variable {limit : Option Nat} {s s' : State} {e : Expr} {ts us : List Token}
  {c stop after : Cursor} {t : Token}

theorem shifts?_cons (h : step limit s t = .shift s') :
    shifts? limit s (t :: ts) = shifts? limit s' ts := by
  rw [shifts?, h]

theorem read?_of_shifts? (h : shifts? limit s ts = some s') (us : List Token) :
    read? limit s (ts ++ us) = read? limit s' us := by
  induction ts generalizing s with
  | nil =>
    cases h
    rfl
  | cons t ts ih =>
    rw [shifts?] at h
    split at h
    · rename_i s₁ hs
      rw [List.cons_append, read?_shift hs]
      exact ih h
    · cases h

theorem shifts?_append (ts us : List Token) :
    shifts? limit s (ts ++ us) = (shifts? limit s ts).bind fun s' => shifts? limit s' us := by
  induction ts generalizing s with
  | nil => rfl
  | cons t ts ih =>
    rw [List.cons_append, shifts?, shifts?]
    split
    · exact ih
    · rfl

/-- What is read has its tokens shifted, up to the end of input. -/
theorem exists_shifts?_of_read? (hts : ∀ u ∈ ts, u.kind ≠ .endOfInput)
    (h : read? limit s (ts ++ us) = some e) :
    ∃ s', shifts? limit s ts = some s' ∧ read? limit s' us = some e := by
  induction ts generalizing s with
  | nil => exact ⟨s, rfl, h⟩
  | cons t ts ih =>
    obtain ⟨ht, hts⟩ := List.forall_mem_cons.mp hts
    rcases read?_cons_eq_some h with ⟨s₁, hs, hread⟩ | ⟨-, hk⟩
    · obtain ⟨s', hshifts, hread'⟩ := ih hts hread
      exact ⟨s', (shifts?_cons hs).trans hshifts, hread'⟩
    · exact absurd hk ht

/-- A run goes on behind a passage as if it had begun there. -/
theorem run_of_shifts? (hts : c.Reads ts stop) (hs : shifts? limit s ts = some s') :
    run limit s c c.stream = run limit s' stop stop.stream := by
  induction hts generalizing s with
  | nil c =>
    cases hs
    rfl
  | cons hu hk _ ih =>
    rw [shifts?] at hs
    split at hs
    · rename_i s₁ hs₁
      rw [run_eq_follow hu, hs₁]
      exact ih hs
    · cases hs

/-! ## How a run ends -/

/-- An accepting run: the tokens up to `stop` belong to the expression, and the next one does not. -/
structure Accepts (limit : Option Nat) (s : State) (c : Cursor) (e : Expr) (ts : List Token)
    (stop : Cursor) (t : Token) (after : Cursor) : Prop where
  reads : c.Reads ts stop
  next : stop.next = (.ok t, after)
  step : ∃ s', shifts? limit s ts = some s' ∧ Parser.step limit s' t = .accept e

/-- A refusing run: the tokens up to `here` could belong to an expression, and the next one cannot. -/
structure Refuses (limit : Option Nat) (s : State) (c : Cursor) (cause : Cause) (consumed : Bool)
    (ts : List Token) (here : Cursor) (t : Token) (after : Cursor) : Prop where
  reads : c.Reads ts here
  next : here.next = (.ok t, after)
  step : ∃ s', shifts? limit s ts = some s' ∧ Parser.step limit s' t = .refuse cause consumed

/-- A run that comes to text which is no token, in the state `s'`. -/
structure Breaks (limit : Option Nat) (s : State) (c : Cursor) (x : ParseError) (ts : List Token)
    (here stop : Cursor) (s' : State) : Prop where
  reads : c.Reads ts here
  next : here.next = (.error x, stop)
  shifts : shifts? limit s ts = some s'

theorem Accepts.run (h : Accepts limit s c e ts stop t after) :
    run limit s c c.stream = .accepted e stop stop.stream := by
  obtain ⟨s', hs, ha⟩ := h.step
  rw [run_of_shifts? h.reads hs, run_eq_follow h.next, ha]
  rfl

theorem Refuses.run {cause : Cause} {consumed : Bool} {here : Cursor}
    (h : Refuses limit s c cause consumed ts here t after) :
    run limit s c c.stream = refusal cause t (if consumed then after else here) := by
  obtain ⟨s', hs, hr⟩ := h.step
  rw [run_of_shifts? h.reads hs, run_eq_follow h.next, hr]
  rfl

theorem Breaks.run {x : ParseError} {here : Cursor} (h : Breaks limit s c x ts here stop s') :
    run limit s c c.stream = .refused x (if s'.goal.takesBlindly then stop else here) := by
  rw [run_of_shifts? h.reads h.shifts, run_of_error h.next]

/-- Behind a passage, a run ends in one of three ways. -/
inductive Ends (limit : Option Nat) (s : State) (c : Cursor) : Prop where
  | accepts {e : Expr} {ts : List Token} {stop : Cursor} {t : Token} {after : Cursor}
      (h : Accepts limit s c e ts stop t after)
  | refuses {cause : Cause} {consumed : Bool} {ts : List Token} {here : Cursor} {t : Token}
      {after : Cursor} (h : Refuses limit s c cause consumed ts here t after)
  | breaks {x : ParseError} {ts : List Token} {here stop : Cursor} {s' : State}
      (h : Breaks limit s c x ts here stop s')

/-- A run that shifts a token ends as it does behind the token. -/
theorem Ends.cons (hn : c.next = (.ok t, after)) (hs : step limit s t = .shift s')
    (h : Ends limit s' after) : Ends limit s c := by
  have ht := kind_ne_of_shift hs
  cases h with
  | accepts h =>
    obtain ⟨s₁, hs₁, ha⟩ := h.step
    exact .accepts ⟨.cons hn ht h.reads, h.next, s₁, (shifts?_cons hs).trans hs₁, ha⟩
  | refuses h =>
    obtain ⟨s₁, hs₁, hr⟩ := h.step
    exact .refuses ⟨.cons hn ht h.reads, h.next, s₁, (shifts?_cons hs).trans hs₁, hr⟩
  | breaks h => exact .breaks ⟨.cons hn ht h.reads, h.next, (shifts?_cons hs).trans h.shifts⟩

/-- **Every run ends, in one of the three ways.** -/
theorem run_ends (limit : Option Nat) (s : State) (c : Cursor) : Ends limit s c := by
  match hn : c.next with
  | (.error x, stop) => exact .breaks ⟨.nil c, hn, rfl⟩
  | (.ok t, after) =>
    cases hs : step limit s t with
    | accept e => exact .accepts ⟨.nil c, hn, s, rfl, hs⟩
    | refuse cause consumed => exact .refuses ⟨.nil c, hn, s, rfl, hs⟩
    | shift s' =>
      have hlt := Cursor.length_rest_next_lt hn (kind_ne_of_shift hs)
      exact .cons hn hs (run_ends limit s' after)
termination_by c.rest.length

/-- Every accepting run is one along a passage. -/
theorem exists_accepts (c : Cursor) {s : State} {stop : Cursor} {following : Stream}
    (h : run limit s c c.stream = .accepted e stop following) :
    ∃ ts t after, Accepts limit s c e ts stop t after := by
  cases run_ends limit s c with
  | accepts ha =>
    rw [ha.run] at h
    cases h
    exact ⟨_, _, _, ha⟩
  | refuses hr =>
    rw [hr.run] at h
    cases h
  | breaks hb =>
    rw [hb.run] at h
    cases h

end

end Parser

end EL
