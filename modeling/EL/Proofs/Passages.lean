import EL.Proofs.Acceptance
import EL.Proofs.Lookahead

/-!
# Passages: where in a text a number of tokens stand

`Cursor.Reads` says that some tokens, the end of input not among them, are read between two cursors.
Between the two there is a passage of text, and

> **the tokens of a passage stay what they are if the text behind it is replaced** (`Reads.replace`).

So a passage can be cut out of its text and read by itself, and lines can be put behind it.
-/

set_option autoImplicit false

namespace EL

/-! ## One lexeme and the gap before it -/

/-- The text consists of the gap `g`, the lexeme `x`, and what follows them. -/
structure BeginsWith (text g : List Char) (x : Lexeme) (cs : List Char) : Prop where
  split : text = g ++ (x.spelling ++ cs)
  gap : gap text = g
  read : ∃ c r, x.spelling ++ cs = c :: r ∧ Lexeme.read c r = .ok x

namespace Lexeme

theorem number?_of_read {c : Char} {r : List Char} {x : Lexeme} (h : read c r = .ok x)
    (hx : x.kind = .number) : number? (c :: r) = some (.ok x) := by
  have hsymbols : ∀ s ∈ Kind.symbols, s.1 ≠ .number := by decide
  have hkeywords : ∀ s ∈ Kind.keywords, s.1 ≠ .number := by decide
  cases found_of_read h with
  | symbol hs => exact absurd hx (hsymbols _ hs)
  | keyword hs => exact absurd hx (hkeywords _ hs)
  | string | name => cases hx
  | number hnumber => exact hnumber

end Lexeme

namespace BeginsWith

variable {text g cs cs' : List Char} {x : Lexeme}

theorem replace (h : BeginsWith text g x cs) (hcs : MayReplace cs cs')
    (hp : x.kind = .number → beginsWithPoint cs' = false) :
    BeginsWith (g ++ (x.spelling ++ cs')) g x cs' := by
  obtain ⟨hsplit, hgap, c, r, hcr, hread⟩ := h
  obtain ⟨r', hcr', hread'⟩ := Lexeme.read_replace hcr.symm hread hcs hp
  refine ⟨rfl, ?_, c, r', hcr', hread'⟩
  have hg : gapFrom false (g ++ (x.spelling ++ cs)) = g := by rw [← hsplit]; exact hgap
  have hstop : EL.gap (x.spelling ++ cs') = [] :=
    gap_replace (Lexeme.read_spelling_ne_nil hread) hcs (gap_of_gapFrom hg)
  rw [hcr] at hg
  rw [hcr'] at hstop ⊢
  exact gapFrom_replace hg hstop

theorem dots (s : List Char) : BeginsWith ('.' :: '.' :: s) [] ⟨.range, ['.', '.']⟩ s :=
  ⟨rfl, rfl, '.', '.' :: s, rfl, rfl⟩

end BeginsWith

namespace Cursor

variable {c after stop : Cursor} {t : Token} {ts us : List Token}

/-- In front of what is read next there is the gap. -/
theorem gap_append_rest (c : Cursor) : gap c.rest ++ c.skipGap.rest = c.rest :=
  List.prefix_iff_eq_append.mp (gapFrom_isPrefix false c.rest)

/-- What is read next, as a piece of text. -/
theorem exists_of_next (h : c.next = (.ok t, after)) (ht : t.kind ≠ .endOfInput) :
    ∃ g x, BeginsWith c.rest g x after.rest ∧
      t = ⟨x.kind, String.ofList x.text, c.position.advance g⟩ ∧
      after.position = c.position.advance (g ++ x.spelling) := by
  unfold next readHere at h
  split at h
  · cases h
    exact absurd rfl ht
  · rename_i first r hr
    split at h <;> cases h
    rename_i x hx
    obtain ⟨s, hs⟩ := Lexeme.read_prefix hx
    have hafter : (c.skipGap.pass x.spelling).rest = s := by
      show c.skipGap.rest.drop x.spelling.length = s
      rw [hr, ← hs, List.drop_left]
    refine ⟨gap c.rest, x, ⟨?_, rfl, first, r, ?_, hx⟩, rfl, ?_⟩
    · rw [hafter, hs, ← hr]
      exact c.gap_append_rest.symm
    · rw [hafter, hs]
    · rw [Position.advance_append]
      rfl

theorem next_of_beginsWith {g cs : List Char} {x : Lexeme} (h : BeginsWith c.rest g x cs) :
    c.next = (.ok ⟨x.kind, String.ofList x.text, c.position.advance g⟩,
      ⟨cs, c.position.advance (g ++ x.spelling)⟩) := by
  obtain ⟨hsplit, hgap, first, r, hr, hread⟩ := h
  have hskip : c.skipGap = ⟨x.spelling ++ cs, c.position.advance g⟩ := by
    rw [skipGap, hgap, pass, hsplit, List.drop_left]
  rw [next, hskip, readHere]
  simp only [hr, hread]
  rw [← hr, pass, List.drop_left, Position.advance_append]

/-- The end of input is read where nothing is left but a gap. -/
theorem next_eq_end (h : c.next = (.ok t, after)) (ht : t.kind = .endOfInput) :
    gap c.rest = c.rest ∧ t = ⟨.endOfInput, "", c.position.advance c.rest⟩ ∧
      after = ⟨[], c.position.advance c.rest⟩ := by
  unfold next readHere at h
  split at h
  · rename_i hr
    have hgap : gap c.rest = c.rest := by
      have hnil : c.rest.drop (gap c.rest).length = [] := hr
      exact (gapFrom_isPrefix false c.rest).eq_of_length_le (List.drop_eq_nil_iff.mp hnil)
    cases h
    refine ⟨hgap, ?_, ?_⟩ <;> simp [skipGap, pass, hgap]
  · split at h <;> cases h
    rename_i x hx
    exact absurd ht (Lexeme.kind_ne_endOfInput hx)

theorem next_of_gap (h : gap c.rest = c.rest) :
    c.next = (.ok ⟨.endOfInput, "", c.position.advance c.rest⟩,
      ⟨[], c.position.advance c.rest⟩) := by
  have hskip : c.skipGap = ⟨[], c.position.advance c.rest⟩ := by
    simp [skipGap, pass, h]
  rw [next, hskip]
  rfl

/-- Where something can be read after a number, no point follows the number. -/
theorem beginsWithPoint_eq_false {text g : List Char} {x : Lexeme}
    (hx : BeginsWith text g x c.rest) (hk : x.kind = .number) (h : c.next = (.ok t, after)) :
    beginsWithPoint c.rest = false := by
  rw [Bool.eq_false_iff]
  intro hpoint
  obtain ⟨r, hr, -⟩ := exists_of_beginsWithPoint hpoint
  obtain ⟨-, -, first, s, hs, hread⟩ := hx
  have hnumber := Lexeme.number?_of_read hread hk
  rw [← hs, hr] at hnumber
  rw [hr] at hpoint
  have hskip : c.skipGap = c := skipGap_of_gap (by rw [hr]; rfl)
  rw [next, hskip, readHere, hr] at h
  simp only [Lexeme.read_point hnumber hpoint] at h
  cases h

/-! ## Passages -/

/-- The cursor after reading so many times. -/
def forward (c : Cursor) : Nat → Cursor
  | 0 => c
  | n + 1 => c.next.2.forward n

/-- The tokens read from one cursor on up to another. -/
inductive Reads : Cursor → List Token → Cursor → Prop
  | nil (c : Cursor) : Reads c [] c
  | cons {c after stop : Cursor} {t : Token} {ts : List Token} (h : c.next = (.ok t, after))
      (ht : t.kind ≠ .endOfInput) (hts : Reads after ts stop) : Reads c (t :: ts) stop

namespace Reads

theorem append {later : Cursor} (h : c.Reads ts stop) (h' : stop.Reads us later) :
    c.Reads (ts ++ us) later := by
  induction h with
  | nil => exact h'
  | cons hn ht _ ih => exact .cons hn ht (ih h')

theorem kind_ne (h : c.Reads ts stop) : ∀ t ∈ ts, t.kind ≠ .endOfInput := by
  induction h with
  | nil => simp
  | cons _ ht _ ih =>
    intro u hu
    rcases List.mem_cons.mp hu with rfl | hu
    · exact ht
    · exact ih u hu

theorem length_le (h : c.Reads ts stop) : stop.rest.length ≤ c.rest.length := by
  induction h with
  | nil => exact Nat.le_refl _
  | cons hn ht _ ih => exact Nat.le_trans ih (Nat.le_of_lt (length_rest_next_lt hn ht))

theorem forward_length (h : c.Reads ts stop) : c.forward ts.length = stop := by
  induction h with
  | nil => rfl
  | cons hn _ _ ih => rw [List.length_cons, Cursor.forward, hn, ih]

theorem forward_length_succ (h : c.Reads ts stop) (hn : stop.next = (.ok t, after)) :
    c.forward (ts.length + 1) = after := by
  induction h with
  | nil =>
    rw [List.length_nil, Cursor.forward, hn]
    rfl
  | cons hu _ _ ih => rw [List.length_cons, Cursor.forward, hu, ih hn]

theorem stream (h : c.Reads ts stop) :
    c.stream.tokens = ts ++ stop.stream.tokens ∧ c.stream.error? = stop.stream.error? := by
  induction h with
  | nil => exact ⟨rfl, rfl⟩
  | cons hn ht _ ih =>
    obtain ⟨htokens, herror⟩ := ih
    rw [stream_of_token hn ht]
    exact ⟨congrArg (_ :: ·) htokens, herror⟩

/-- The tokens of a text are those of a passage and those behind it. -/
theorem tokens (h : c.Reads ts stop) : c.tokens = stop.tokens.map (ts ++ ·) := by
  obtain ⟨htokens, herror⟩ := h.stream
  rw [Cursor.tokens, Cursor.tokens, herror, htokens]
  cases stop.stream.error? <;> rfl

theorem tokens_error_iff {x : ParseError} (h : c.Reads ts stop) :
    c.tokens = .error x ↔ stop.tokens = .error x := by
  induction h with
  | nil c => rfl
  | cons hn ht _ ih => exact (Cursor.tokens_error_iff hn ht).trans ih

theorem tokens_ok_iff {vs : List Token} (h : c.Reads ts stop) :
    c.tokens = .ok vs ↔ ∃ us, stop.tokens = .ok us ∧ vs = ts ++ us := by
  rw [h.tokens]
  cases stop.tokens <;> simp [Except.map, eq_comm]

theorem exists_stream_tokens (h : c.Reads ts stop) (hn : stop.next = (.ok t, after)) :
    ∃ us, c.stream.tokens = ts ++ t :: us := by
  rw [h.stream.1]
  by_cases ht : t.kind = .endOfInput
  · exact ⟨[], by rw [stream_of_end hn ht, Stream.tokens]⟩
  · exact ⟨after.stream.tokens, by rw [stream_of_token hn ht, Stream.tokens]⟩

theorem tokens_of_error {x : ParseError} (h : c.Reads ts stop)
    (hn : stop.next = (.error x, after)) : c.tokens = .error x :=
  h.tokens_error_iff.mpr (Cursor.tokens_of_error hn)

/-- Text in front of which something is read, and which is no single point, does not become one
    with something else behind it. -/
theorem beginsWithPoint_append {p cs' : List Char} (h : after.Reads (t :: ts) stop)
    (hp : after.rest = p ++ stop.rest) (hpoint : beginsWithPoint after.rest = false) :
    beginsWithPoint (p ++ cs') = false := by
  rw [Bool.eq_false_iff]
  intro hnew
  obtain ⟨r, hr, hhead⟩ := exists_of_beginsWithPoint hnew
  cases h with
  | @cons _ mid _ _ _ hn ht hts =>
    have hlt := length_rest_next_lt hn ht
    have hle := hts.length_le
    cases p with
    | nil =>
      rw [hp, List.nil_append] at hlt
      omega
    | cons d q =>
      obtain ⟨rfl, rfl⟩ := List.cons.inj hr
      have hsecond : (q ++ stop.rest).head? = some '.' := by
        simpa [hp, EL.beginsWithPoint] using hpoint
      cases q with
      | cons d q => exact hhead hsecond
      | nil =>
        -- The two points are a range, and both stand in front of what is left.
        obtain ⟨s, hs⟩ := List.head?_eq_some_iff.mp hsecond
        have hrest : after.rest = '.' :: '.' :: s := by rw [hp, ← hs]; rfl
        have hdots : BeginsWith after.rest [] ⟨.range, ['.', '.']⟩ s := by
          rw [hrest]
          exact .dots s
        have hrange := next_of_beginsWith hdots
        rw [hn] at hrange
        cases hrange
        rw [List.nil_append] at hs
        rw [hs, List.length_cons] at hle
        exact absurd hle (Nat.not_succ_le_self _)

/-- **The tokens of a passage stay what they are if the text behind it is replaced**, unless a number
    is the last of them and a point would follow. -/
theorem replace {cs' : List Char} (h : c.Reads ts stop) (hcs : MayReplace stop.rest cs')
    (hp : ∀ t ∈ ts.getLast?, t.kind = .number → beginsWithPoint cs' = false) :
    ∃ p, c.rest = p ++ stop.rest ∧ stop.position = c.position.advance p ∧
      (⟨p ++ cs', c.position⟩ : Cursor).Reads ts ⟨cs', stop.position⟩ := by
  -- From the last token back: what stands behind a token is the rest of the passage, replaced.
  induction h with
  | nil c => exact ⟨[], rfl, rfl, .nil _⟩
  | @cons c after stop t ts hn ht hts ih =>
    have hlast : ∀ u ∈ ts.getLast?, u ∈ (t :: ts).getLast? := by
      intro u hu
      rw [List.getLast?_cons, Option.mem_def.mp hu]
      rfl
    obtain ⟨p, hafter, hstop, hreads⟩ := ih hcs (fun u hu => hp u (hlast u hu))
    obtain ⟨g, x, hx, rfl, hposition⟩ := exists_of_next hn ht
    have hnumber : x.kind = .number → EL.beginsWithPoint (p ++ cs') = false := by
      intro hk
      cases hts with
      | nil =>
        obtain rfl : p = [] := by simpa using hafter
        exact hp _ rfl hk
      | cons hn' ht' hts' =>
        -- Another token was read behind the number, so there is no point.
        exact beginsWithPoint_append (.cons hn' ht' hts') hafter
          (beginsWithPoint_eq_false hx hk hn')
    have hx' : BeginsWith (g ++ (x.spelling ++ (p ++ cs'))) g x (p ++ cs') :=
      (hafter ▸ hx).replace (hcs.append p) hnumber
    refine ⟨g ++ (x.spelling ++ p), ?_, ?_, ?_⟩
    · rw [hx.split, hafter]
      simp only [List.append_assoc]
    · rw [hstop, hposition, ← Position.advance_append]
      simp only [List.append_assoc]
    · have hn' : (⟨g ++ (x.spelling ++ (p ++ cs')), c.position⟩ : Cursor).next = _ :=
        next_of_beginsWith hx'
      rw [← hposition] at hn'
      simp only [List.append_assoc]
      exact .cons hn' ht hreads

end Reads

theorem stream_of_tokens (h : c.tokens = .ok ts) :
    c.stream.tokens = ts ∧ c.stream.error? = none := by
  unfold Cursor.tokens at h
  split at h
  · cases h
  · exact ⟨Except.ok.inj h, ‹_›⟩

/-- Before the error that a scan stops at there is a passage. -/
theorem exists_reads_of_error (c : Cursor) {x : ParseError} (h : c.tokens = .error x) :
    ∃ ts here stop, c.Reads ts here ∧ here.next = (.error x, stop) := by
  match hn : c.next with
  | (.error y, stop) =>
    rw [tokens_of_error hn] at h
    cases h
    exact ⟨[], c, stop, .nil c, hn⟩
  | (.ok t, after) =>
    by_cases ht : t.kind = .endOfInput
    · rw [tokens_of_end hn ht] at h
      cases h
    · have hlt := length_rest_next_lt hn ht
      obtain ⟨ts, here, stop, hts, hx⟩ :=
        exists_reads_of_error after ((tokens_error_iff hn ht).mp h)
      exact ⟨t :: ts, here, stop, .cons hn ht hts, hx⟩
termination_by c.rest.length

theorem next_of_tokens (h : c.tokens = .ok (t :: ts)) : ∃ after, c.next = (.ok t, after) ∧
    (ts ≠ [] → t.kind ≠ .endOfInput ∧ after.tokens = .ok ts) := by
  match hn : c.next with
  | (.error x, _) =>
    rw [tokens_of_error hn] at h
    cases h
  | (.ok u, after) =>
    by_cases hu : u.kind = .endOfInput
    · rw [tokens_of_end hn hu] at h
      cases h
      exact ⟨after, rfl, fun hne => absurd rfl hne⟩
    · obtain ⟨us, hafter, heq⟩ := (tokens_ok_iff hn hu).mp h
      cases heq
      exact ⟨after, rfl, fun _ => ⟨hu, hafter⟩⟩

/-- Before a token that a scan finds there is a passage. -/
theorem exists_reads_of_tokens {us vs : List Token} (h : c.tokens = .ok (us ++ t :: vs)) :
    ∃ here after, c.Reads us here ∧ here.next = (.ok t, after) := by
  induction us generalizing c with
  | nil =>
    obtain ⟨after, hn, -⟩ := next_of_tokens h
    exact ⟨c, after, .nil c, hn⟩
  | cons u us ih =>
    obtain ⟨after, hn, hmore⟩ := next_of_tokens h
    obtain ⟨hu, htokens⟩ := hmore (by simp)
    obtain ⟨here, after', hus, ht⟩ := ih htokens
    exact ⟨here, after', .cons hn hu hus, ht⟩

end Cursor

end EL
