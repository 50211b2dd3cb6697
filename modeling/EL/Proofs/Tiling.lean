import EL.Proofs.Onward

/-!
# A text and its tokens

Scanning loses nothing of a text and reads nothing twice. **A text is its gaps and the spellings of
its tokens, in turn** (`tokens_tiled`): every token says by its offset how much stands before its
spelling, and what stands between two spellings is blank or a comment. A scan that stops at an error
has done as much for the text in front of the error.

What a gap is, is said here once more, without the function that finds gaps: `IsGap` describes them
by what they consist of.
-/

set_option autoImplicit false

namespace EL

open Text (isBlank)

/-! ## Gaps -/

/-- Does a comment end before this character? -/
def endsComment (c : Char) : Bool := c = '\n' || c = '\r'

/-- Blanks, and comments that each go on up to a line feed or a carriage return. Where nothing comes
    after the gap, its last comment may go on to the end. -/
inductive IsGap (last : Prop) : List Char → Prop where
  | nil : IsGap last []
  | blank {c : Char} {g : List Char} (hc : isBlank c = true) (hg : IsGap last g) : IsGap last (c :: g)
  | comment {w g : List Char} {c : Char} (hw : ∀ d ∈ w, endsComment d = false)
      (hc : endsComment c = true) (hg : IsGap last g) : IsGap last ('/' :: '/' :: (w ++ c :: g))
  | lastComment {w : List Char} (h : last) (hw : ∀ d ∈ w, endsComment d = false) :
      IsGap last ('/' :: '/' :: w)

theorem IsGap.imp {p q : Prop} {g : List Char} (h : IsGap p g) (hpq : p → q) : IsGap q g := by
  induction h with
  | nil => exact .nil
  | blank hc _ ih => exact .blank hc ih
  | comment hw hc _ ih => exact .comment hw hc ih
  | lastComment hp hw => exact .lastComment (hpq hp) hw

theorem isBlank_of_endsComment {c : Char} (h : endsComment c = true) : isBlank c = true := by
  have hc : c = '\n' ∨ c = '\r' := by simpa [endsComment] using h
  rcases hc with rfl | rfl <;> rfl

/-- A comment is passed as a whole. -/
theorem gapFrom_comment (cs : List Char) : gapFrom true cs =
    cs.takeWhile (!endsComment ·) ++ gap (cs.dropWhile (!endsComment ·)) := by
  induction cs with
  | nil => rfl
  | cons c cs ih =>
    by_cases hc : endsComment c = true
    · have hends : c = '\n' ∨ c = '\r' := by simpa [endsComment] using hc
      have hblank : isBlank c = true := isBlank_of_endsComment hc
      have hgo : ¬ (c ≠ '\n' ∧ c ≠ '\r') := by
        rintro ⟨hfeed, hreturn⟩
        exact hends.elim hfeed hreturn
      simp [gap, gapFrom_cons, hc, hblank, hgo]
    · have hgo : c ≠ '\n' ∧ c ≠ '\r' := by simpa [endsComment] using hc
      rw [gapFrom_cons, if_pos ⟨rfl, hgo⟩, ih]
      simp [hc]

/-- A comment goes on for some characters, and then comes the end of its line or of the text. -/
theorem exists_comment (cs : List Char) : ∃ w tail, cs = w ++ tail ∧
    (∀ d ∈ w, endsComment d = false) ∧ (∀ d ∈ tail.head?, endsComment d = true) ∧
    gapFrom true cs = w ++ gap tail := by
  refine ⟨_, _, List.takeWhile_append_dropWhile.symm, ?_, ?_, gapFrom_comment cs⟩
  · intro d hd
    simpa using List.mem_takeWhile_imp hd
  · intro d hd
    have hstop := List.head?_dropWhile_not (!endsComment ·) cs
    rw [Option.mem_def.mp hd] at hstop
    simpa using hstop

theorem gap_slashes (cs : List Char) : gap ('/' :: '/' :: cs) = '/' :: '/' :: gapFrom true cs := by
  have hblank : isBlank '/' = false := rfl
  simp [gap, gapFrom_cons, hblank]

/-- What is passed before a lexeme, or before the end of a text, is a gap. -/
theorem isGap_gap {cs r : List Char} (h : cs = gap cs ++ r) : IsGap (r = []) (gap cs) := by
  -- By the length of the text, as a comment is passed at once.
  induction hn : cs.length using Nat.strong_induction_on generalizing cs with
  | _ n ih =>
    subst hn
    cases cs with
    | nil => exact .nil
    | cons c cs =>
      by_cases hblank : isBlank c = true
      · rw [gap_blank hblank] at h ⊢
        exact .blank hblank (ih _ (Nat.lt_succ_self _) (List.cons.inj h).2 rfl)
      · by_cases hslash : c = '/' ∧ cs.head? = some '/'
        · obtain ⟨rfl, hsecond⟩ := hslash
          obtain ⟨s, rfl⟩ := List.head?_eq_some_iff.mp hsecond
          obtain ⟨w, tail, rfl, hw, htail, hcomment⟩ := exists_comment s
          rw [gap_slashes, hcomment] at h ⊢
          have hrest : tail = gap tail ++ r := by simpa using h
          cases tail with
          | nil =>
            have hr : r = [] := by simpa [gap, gapFrom] using hrest
            rw [show gap [] = [] from rfl, List.append_nil]
            exact .lastComment hr hw
          | cons d t =>
            have hd : endsComment d = true := htail d rfl
            rw [gap_blank (isBlank_of_endsComment hd)] at hrest ⊢
            refine .comment hw hd (ih t.length ?_ (List.cons.inj hrest).2 rfl)
            simp only [List.length_cons, List.length_append]
            omega
        · have hnil : gap (c :: cs) = [] :=
            gap_cons_eq_nil_iff.mpr ⟨Bool.eq_false_iff.mpr hblank, hslash⟩
          rw [hnil]
          exact .nil

/-- A gap is passed, whatever stands behind it. -/
theorem IsGap.gap_append {g : List Char} (h : IsGap False g) (r : List Char) :
    gap (g ++ r) = g ++ gap r := by
  induction h with
  | nil => rfl
  | blank hc _ ih => rw [List.cons_append, gap_blank hc, ih, List.cons_append]
  | @comment w g c hw hc _ ih =>
    have hrest : gapFrom true (w ++ c :: (g ++ r)) = w ++ gap (c :: (g ++ r)) := by
      have hpass : ∀ d ∈ w, (!endsComment d) = true := fun d hd => by simp [hw d hd]
      rw [gapFrom_comment, List.takeWhile_append_of_pos hpass, List.dropWhile_append_of_pos hpass]
      simp [hc]
    simp only [List.cons_append, List.append_assoc]
    rw [gap_slashes, hrest, gap_blank (isBlank_of_endsComment hc), ih]
  | lastComment hlast _ => exact hlast.elim

/-! ## Spellings -/

/-- The characters that a token was made of: its text, or the text of a string between two equal
    quotes. -/
inductive Token.MadeOf (t : Token) : List Char → Prop where
  | plain (h : t.kind ≠ .string) : t.MadeOf t.text.toList
  | quoted (h : t.kind = .string) {q : Char} (hq : q = '"' ∨ q = '\'') :
      t.MadeOf (q :: (t.text.toList ++ [q]))

namespace Lexeme

variable {c : Char} {r : List Char} {x : Lexeme}

/-- A string stands between two equal quotes. -/
theorem string_of_read (h : read c r = .ok x) (hx : x.kind = .string) :
    (c = '"' ∨ c = '\'') ∧
      ∃ content, stringContent? c r = some content ∧ x.spelling = c :: (content ++ [c]) := by
  have hsymbols : ∀ s ∈ Kind.symbols, s.1 ≠ .string := by decide
  have hkeywords : ∀ s ∈ Kind.keywords, s.1 ≠ .string := by decide
  cases found_of_read h with
  | symbol hs => exact absurd hx (hsymbols _ hs)
  | keyword hs => exact absurd hx (hkeywords _ hs)
  | number | name => cases hx
  | string hquote hcontent => exact ⟨hquote, _, hcontent, rfl⟩

/-- The text of a string is what stands between its quotes. -/
theorem text_of_string {content : List Char} (hx : x.kind = .string)
    (hspelling : x.spelling = c :: (content ++ [c])) : x.text = content := by
  rw [text, if_pos hx, hspelling, List.tail_cons, List.dropLast_concat]

theorem madeOf_spelling (h : read c r = .ok x) (p : Position) :
    Token.MadeOf ⟨x.kind, String.ofList x.text, p⟩ x.spelling := by
  by_cases hx : x.kind = .string
  · obtain ⟨hq, content, -, hspelling⟩ := string_of_read h hx
    rw [text_of_string hx hspelling, hspelling]
    have hquoted := Token.MadeOf.quoted (t := ⟨x.kind, String.ofList content, p⟩) hx hq
    rwa [String.toList_ofList] at hquoted
  · have htext : x.text = x.spelling := by rw [text, if_neg hx]
    rw [htext]
    have hplain := Token.MadeOf.plain (t := ⟨x.kind, String.ofList x.spelling, p⟩) hx
    rwa [String.toList_ofList] at hplain

end Lexeme

/-! ## The text in pieces -/

/-- Behind the characters `before` there come the gaps and the spellings of some tokens, and then
    `rest`. -/
inductive Tiled : List Char → List Char → List Token → List Char → Prop where
  | nil (before rest : List Char) : Tiled before rest [] rest
  | cons {before g r cs rest : List Char} {t : Token} {ts : List Token} (hg : IsGap False g)
      (hr : t.MadeOf r) (hne : r ≠ []) (ht : t.start.offset = byteLength (before ++ g))
      (hcs : Tiled (before ++ (g ++ r)) cs ts rest) : Tiled before (g ++ (r ++ cs)) (t :: ts) rest

namespace Cursor

variable {c stop : Cursor} {ts : List Token}

/-- The characters of a passage are those of its tokens and of the gaps in front of them. -/
theorem Reads.tiled (before : List Char) (h : c.Reads ts stop)
    (hc : c.offset = byteLength before) :
    ∃ w, c.rest = w ++ stop.rest ∧ stop.position = c.position.advance w ∧
      ∀ rest, Tiled before (w ++ rest) ts rest := by
  induction h generalizing before with
  | nil c => exact ⟨[], rfl, rfl, fun rest => .nil before rest⟩
  | @cons c after stop t ts hn ht _ ih =>
    obtain ⟨g, x, hx, rfl, hafter⟩ := exists_of_next hn ht
    obtain ⟨first, r, hr, hread⟩ := hx.read
    have hne : x.spelling ≠ [] := Lexeme.read_spelling_ne_nil hread
    have hgap : IsGap False g := by
      have hshape := isGap_gap (hx.gap.symm ▸ hx.split)
      rw [hx.gap] at hshape
      exact hshape.imp fun hnil => hne (List.append_eq_nil_iff.mp hnil).1
    have hoffset : after.offset = byteLength (before ++ (g ++ x.spelling)) := by
      rw [byteLength_append, ← hc, offset, hafter]
      rfl
    obtain ⟨w, hw, hstop, htiled⟩ := ih _ hoffset
    refine ⟨g ++ (x.spelling ++ w), ?_, ?_, ?_⟩
    · rw [hx.split, hw]
      simp only [List.append_assoc]
    · rw [hstop, hafter, ← Position.advance_append]
      simp only [List.append_assoc]
    · intro rest
      have hstart : (c.position.advance g).offset = byteLength (before ++ g) := by
        rw [byteLength_append, ← hc]
        rfl
      have htile := Tiled.cons (t := ⟨x.kind, String.ofList x.text, c.position.advance g⟩) hgap
        (Lexeme.madeOf_spelling hread _) hne hstart (htiled rest)
      simpa only [List.append_assoc] using htile

/-- Where a scan stops at an error, some text is left, behind a gap. -/
theorem skipGap_of_error {x : ParseError} (h : c.next = (.error x, stop)) :
    c.skipGap.rest ≠ [] ∧ IsGap False (gap c.rest) ∧ x.location = c.skipGap.location := by
  have hne : c.skipGap.rest ≠ [] := by
    intro hnil
    rw [next, readHere, hnil] at h
    cases h
  exact ⟨hne, (isGap_gap c.gap_append_rest.symm).imp hne, (of_next_error h).2.1⟩

end Cursor

/-- **A text is its gaps and the spellings of its tokens, in turn.** The tokens of a text that is
    scanned to its end are those of which it consists, each with the bytes before it for an offset,
    and one end of input behind them. Of a text that is not, as much holds up to the place where no
    token begins. -/
theorem tokens_tiled (text : String) (l : Location) :
    (∀ ts, (Cursor.ofText text l).tokens = .ok ts → ∃ us t last, ts = us ++ [t] ∧
        (∀ u ∈ us, u.kind ≠ .endOfInput) ∧ t.kind = .endOfInput ∧
        t.start.offset = text.utf8ByteSize ∧ Tiled [] text.toList us last ∧ IsGap True last) ∧
      ∀ x, (Cursor.ofText text l).tokens = .error x → ∃ us p bad last, text.toList = p ++ bad ∧
        bad ≠ [] ∧ x.location = l.advance p ∧ (Cursor.ofText text l).stream.tokens = us ∧
        (∀ u ∈ us, u.kind ≠ .endOfInput) ∧ Tiled [] p us last ∧ IsGap False last := by
  constructor
  · intro ts h
    obtain ⟨us, t, rfl, ht, hus⟩ := Cursor.tokens_eq_ok _ h
    obtain ⟨here, after, hreads, hn⟩ := Cursor.exists_reads_of_tokens h
    obtain ⟨w, hw, hhere, htiled⟩ := hreads.tiled [] rfl
    obtain ⟨hgap, hstart, -⟩ := Cursor.next_eq_end hn ht
    have htext : text.toList = w ++ here.rest := hw
    refine ⟨us, t, here.rest, rfl, hus, ht, ?_, ?_, ?_⟩
    · rw [hstart, hhere, ← Position.advance_append, ← htext, ← byteLength_toList]
      exact Nat.zero_add _
    · rw [htext]
      exact htiled here.rest
    · have hlast : IsGap (([] : List Char) = []) (gap here.rest) :=
        isGap_gap (by rw [hgap, List.append_nil])
      rw [hgap] at hlast
      exact hlast.imp fun _ => trivial
  · intro x h
    obtain ⟨us, here, stop, hreads, hn⟩ := Cursor.exists_reads_of_error _ h
    obtain ⟨w, hw, hhere, htiled⟩ := hreads.tiled [] rfl
    obtain ⟨hne, hgap, hx⟩ := Cursor.skipGap_of_error hn
    refine ⟨us, w ++ gap here.rest, here.skipGap.rest, gap here.rest, ?_, hne, ?_, ?_,
      hreads.kind_ne, htiled _, hgap⟩
    · rw [List.append_assoc, here.gap_append_rest]
      exact hw
    · rw [hx, Location.advance_append]
      show (here.position.advance _).location = _
      rw [hhere]
      rfl
    · rw [hreads.stream.1, Cursor.stream_of_error hn, Stream.tokens, List.append_nil]

end EL
