import EL.Parser.Ending
import EL.Parser.Run

/-!
# Acceptance: a strict parse as a matter of tokens alone

A parse runs over a stream, which carries cursors, and it may end in many ways. When the whole text
has to be one expression only the tokens count: `Parser.read?` is what a parser makes of a list of
them, the end of input included, and

> **a strict parse yields a tree exactly if the text can be read to its end and the tree is what
> the parser makes of its tokens** (`parse_strict_iff`).

Everything that is proved here about what strict parses accept is proved about `Parser.read?`. It
goes on token by token, and what it makes of the rest depends on a state only through the next step
(`read?_congr`), which is how different states come to be exchanged for one another.
-/

set_option autoImplicit false

namespace EL

namespace Parser

/-- The tree that a parser makes of a list of tokens, if it accepts them all. -/
def read? (limit : Option Nat) (s : State) : List Token → Option Expr
  | [] => none
  | t :: ts =>
    match step limit s t with
    | .shift s' => read? limit s' ts
    | .accept e => if t.kind = .endOfInput then some e else none
    | .refuse _ _ => none

section
variable {limit : Option Nat} {s s' : State} {t : Token} {ts : List Token}

theorem read?_shift (h : step limit s t = .shift s') :
    read? limit s (t :: ts) = read? limit s' ts := by
  rw [read?, h]

theorem read?_refuse {cause : Cause} {consumed : Bool} (h : step limit s t = .refuse cause consumed) :
    read? limit s (t :: ts) = none := by
  rw [read?, h]

/-- States that do the same with the next token are the same for all that follows. -/
theorem read?_congr (h : step limit s t = step limit s' t) :
    read? limit s (t :: ts) = read? limit s' (t :: ts) := by
  rw [read?, read?, h]

/-- What is accepted was not refused at the first token. -/
theorem read?_cons_eq_some {e : Expr} (h : read? limit s (t :: ts) = some e) :
    (∃ s', step limit s t = .shift s' ∧ read? limit s' ts = some e) ∨
      (step limit s t = .accept e ∧ t.kind = .endOfInput) := by
  rw [read?] at h
  split at h
  · rename_i s' hs
    exact .inl ⟨s', hs, h⟩
  · rename_i e' hs
    split at h
    · rename_i ht
      obtain rfl : e' = e := by simpa using h
      exact .inr ⟨hs, ht⟩
    · simp at h
  · simp at h

end

end Parser

/-! ## The tokens of a text, one by one -/

namespace Cursor

variable {c after stop : Cursor} {t : Token} {e : ParseError}

theorem tokens_of_error (h : c.next = (.error e, stop)) : c.tokens = .error e := by
  simp [tokens, stream_of_error h, Stream.error?]

theorem tokens_of_end (h : c.next = (.ok t, after)) (ht : t.kind = .endOfInput) :
    c.tokens = .ok [t] := by
  simp [tokens, stream_of_end h ht, Stream.error?, Stream.tokens]

theorem tokens_of_token (h : c.next = (.ok t, after)) (ht : t.kind ≠ .endOfInput) :
    c.tokens = after.tokens.map (t :: ·) := by
  rw [tokens, stream_of_token h ht, tokens]
  simp only [Stream.error?, Stream.tokens]
  cases after.stream.error? <;> rfl

theorem tokens_error_iff {x : ParseError} (h : c.next = (.ok t, after)) (ht : t.kind ≠ .endOfInput) :
    c.tokens = .error x ↔ after.tokens = .error x := by
  rw [tokens_of_token h ht]
  cases after.tokens <;> simp [Except.map]

theorem tokens_ok_iff {ts : List Token} (h : c.next = (.ok t, after)) (ht : t.kind ≠ .endOfInput) :
    c.tokens = .ok ts ↔ ∃ us, after.tokens = .ok us ∧ ts = t :: us := by
  rw [tokens_of_token h ht]
  cases after.tokens <;> simp [Except.map, eq_comm]

/-- The tokens of a text that has less than so many. -/
def scanWithin : Nat → Cursor → Option (List Token)
  | 0, _ => none
  | n + 1, c =>
    match c.next with
    | (.error _, _) => none
    | (.ok t, after) =>
      if t.kind = .endOfInput then some [t] else (after.scanWithin n).map (t :: ·)

theorem tokens_of_scanWithin {ts : List Token} (n : Nat) (h : c.scanWithin n = some ts) :
    c.tokens = .ok ts := by
  induction n generalizing c ts with
  | zero => cases h
  | succ n ih =>
    rw [scanWithin] at h
    split at h
    · cases h
    · rename_i t after hn
      split at h
      · rename_i ht
        cases h
        exact tokens_of_end hn ht
      · rename_i ht
        obtain ⟨us, hus, rfl⟩ := Option.map_eq_some_iff.mp h
        rw [tokens_of_token hn ht, ih hus]
        rfl

/-- The end of input comes once, and last. -/
theorem tokens_eq_ok (c : Cursor) : ∀ {ts : List Token}, c.tokens = .ok ts →
    ∃ us stop, ts = us ++ [stop] ∧ stop.kind = .endOfInput ∧ ∀ u ∈ us, u.kind ≠ .endOfInput := by
  intro ts h
  match hn : c.next with
  | (.error x, _) =>
    rw [tokens_of_error hn] at h
    cases h
  | (.ok t, after) =>
    by_cases ht : t.kind = .endOfInput
    · rw [tokens_of_end hn ht] at h
      cases h
      exact ⟨[], t, rfl, ht, by simp⟩
    · have hlt := length_rest_next_lt hn ht
      obtain ⟨vs, hafter, rfl⟩ := (tokens_ok_iff hn ht).mp h
      obtain ⟨us, stop, rfl, hstop, hus⟩ := tokens_eq_ok after hafter
      refine ⟨t :: us, stop, rfl, hstop, ?_⟩
      intro u hu
      rcases List.mem_cons.mp hu with rfl | hu
      · exact ht
      · exact hus u hu
termination_by c.rest.length

/-- What comes next is all that counts. -/
theorem stream_congr {c c' : Cursor} (h : c.next = c'.next) : c.stream = c'.stream := by
  rw [stream, stream, h]

theorem tokens_congr {c c' : Cursor} (h : c.next = c'.next) : c.tokens = c'.tokens := by
  rw [tokens, tokens, stream_congr h]

/-- The tokens of a text, without the end of input. -/
def Scans (c : Cursor) (ts : List Token) : Prop :=
  ∃ stop, c.tokens = .ok (ts ++ [stop]) ∧ stop.kind = .endOfInput

theorem Scans.kind_ne {ts : List Token} (h : c.Scans ts) : ∀ t ∈ ts, t.kind ≠ .endOfInput := by
  obtain ⟨stop, htokens, -⟩ := h
  obtain ⟨us, stop', heq, -, hus⟩ := c.tokens_eq_ok htokens
  obtain ⟨rfl, -⟩ := List.append_inj' heq rfl
  exact hus

end Cursor

/-! ## Strict parses -/

namespace Parser

/-- Does a verdict leave nothing for a strict parse to object to? -/
def Verdict.StrictlyYields (v : Verdict) (e : Expr) : Prop :=
  ∃ stop following, v = .accepted e stop following ∧ Mode.strict.objection? following = none

theorem not_strictlyYields_refused {error : ParseError} {stop : Cursor} {e : Expr} :
    ¬ (Verdict.refused error stop).StrictlyYields e := by
  rintro ⟨_, _, h, _⟩
  cases h

theorem strictlyYields_accepted {x e : Expr} {stop : Cursor} {following : Stream} :
    (Verdict.accepted x stop following).StrictlyYields e ↔
      x = e ∧ Mode.strict.objection? following = none := by
  constructor
  · rintro ⟨_, _, h, ho⟩
    cases h
    exact ⟨rfl, ho⟩
  · rintro ⟨rfl, ho⟩
    exact ⟨_, _, rfl, ho⟩

/-- A run along a text yields a tree strictly just if the tokens of the text are read as it. -/
theorem strictlyYields_run {limit : Option Nat} {e : Expr} (c : Cursor) :
    ∀ (s : State) (here : Cursor), (run limit s here c.stream).StrictlyYields e ↔
      ∃ ts, c.tokens = .ok ts ∧ read? limit s ts = some e := by
  intro s here
  match hn : c.next with
  | (.error x, stop) =>
    rw [Cursor.stream_of_error hn, Cursor.tokens_of_error hn, run]
    simp [not_strictlyYields_refused]
  | (.ok t, after) =>
    by_cases ht : t.kind = .endOfInput
    · rw [Cursor.stream_of_end hn ht, Cursor.tokens_of_end hn ht, run]
      have hfinal := isFinal_step ht limit s
      cases hs : step limit s t with
      | shift s' => rw [hs] at hfinal; cases hfinal
      | accept x => simp [strictlyYields_accepted, Mode.objection?, read?, hs, ht]
      | refuse cause consumed => simp [not_strictlyYields_refused, refusal, read?, hs]
    · rw [Cursor.stream_of_token hn ht, Cursor.tokens_of_token hn ht, run]
      have hlt := Cursor.length_rest_next_lt hn ht
      cases hs : step limit s t with
      | shift s' =>
        simp only [strictlyYields_run after s' after]
        cases after.tokens <;> simp [Except.map, read?, hs]
      | accept x =>
        cases after.tokens <;>
          simp [strictlyYields_accepted, Mode.objection?, Except.map, read?, hs, ht]
      | refuse cause consumed =>
        cases after.tokens <;> simp [not_strictlyYields_refused, refusal, Except.map, read?, hs]
termination_by c.rest.length

end Parser

/-- **A strict parse is a reading of tokens**: it yields a tree just if the text can be scanned to
    its end and the parser makes that tree of its tokens. -/
theorem parse_strict_iff {c : Cursor} {path : Option String} {limit : Option Nat} {e : Expr} :
    (c.parse { path, limit }).1 = .ok e ↔
      ∃ ts, c.tokens = .ok ts ∧ Parser.read? limit .initial ts = some e := by
  rw [← Parser.strictlyYields_run c .initial c, Cursor.parse]
  cases Parser.run limit .initial c c.stream with
  | refused error stop => simp [Parser.not_strictlyYields_refused]
  | accepted x stop following =>
    rw [Parser.strictlyYields_accepted]
    dsimp only
    cases Mode.strict.objection? following <;> simp

theorem parseStrict_eq_ok_iff {text : String} {e : Expr} :
    parseStrict text = .ok e ↔
      ∃ ts, (Cursor.ofText text).tokens = .ok ts ∧ Parser.read? none .initial ts = some e :=
  parse_strict_iff

end EL
