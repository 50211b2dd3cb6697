import EL.Proofs.Passages
import EL.Proofs.Spelling

/-!
# Words and keywords

A *word* is a run of letters, digits and underscores that begins with no digit. In most languages a
word is either a keyword or a name. Here a keyword is looked for at the beginning of the word only,
and it need not end where the word does, so

> **a word is a name if no keyword begins it, and otherwise it falls into keywords and a rest**
> (`words_scanned`).

What is left behind a keyword is a word or begins with a digit, so the splitting is proved for any run
of the characters that words go on with (`Cursor.exists_keywords`).
-/

set_option autoImplicit false

namespace EL

/-- A name does not go on with a text that begins with none of its characters. -/
theorem endsName_iff {cs : List Char} :
    EndsName cs ↔ ∀ d ∈ cs.head?, d.isAlphanum = false ∧ d ≠ '_' := by
  cases cs with
  | nil => simp [EndsName]
  | cons c r => simp [EndsName, List.takeWhile_cons, Lexeme.continuesName]

/-- The token is a keyword, and of the kind that the keyword is of. -/
def Token.IsKeyword (t : Token) : Prop :=
  (t.kind = .boolean ∧ (t.text = "true" ∨ t.text = "false")) ∨ (t.kind = .null ∧ t.text = "null")

namespace Lexeme

/-- A word: letters, digits and underscores, and no digit at the beginning. -/
def IsWord (cs : List Char) : Prop :=
  ∃ c r, cs = c :: r ∧ beginsName c ∧ ∀ d ∈ r, continuesName d

/-- A keyword stands at the beginning of the text. -/
def BeginsWithKeyword (cs : List Char) : Prop :=
  ∃ k ∈ ["true", "false", "null"], k.toList <+: cs

variable {c : Char} {r w cs : List Char} {x : Lexeme}

theorem IsWord.continuesName (h : IsWord w) : ∀ d ∈ w, continuesName d := by
  obtain ⟨c, r, rfl, hc, hr⟩ := h
  exact List.forall_mem_cons.mpr ⟨continuesName_of_beginsName hc, hr⟩

theorem beginsWithKeyword_iff : BeginsWithKeyword cs ↔ ∃ k ∈ Kind.keywords, k.2 <+: cs := by
  simp [BeginsWithKeyword, Kind.keywords]

/-- A name is a word that no keyword begins. -/
theorem isName_iff : IsName w ↔ IsWord w ∧ ¬ BeginsWithKeyword w := by
  have hnone : keyword? w = none ↔ ¬ BeginsWithKeyword w := by
    rw [keyword?_eq_none, beginsWithKeyword_iff]
    simp
  rw [← hnone]
  constructor
  · rintro ⟨c, r, rfl, hc, hr, hk⟩
    exact ⟨⟨c, r, rfl, hc, hr⟩, hk⟩
  · rintro ⟨⟨c, r, rfl, hc, hr⟩, hk⟩
    exact ⟨c, r, rfl, hc, hr, hk⟩

/-! ## Keywords -/

/-- Every keyword begins as a name does. -/
theorem exists_of_mem_keywords {s : Kind × List Char} (hs : s ∈ Kind.keywords) :
    ∃ c r, s.2 = c :: r ∧ beginsName c := by
  simp only [Kind.keywords, List.mem_cons, List.not_mem_nil, or_false] at hs
  rcases hs with rfl | rfl | rfl <;> exact ⟨_, _, rfl, rfl⟩

/-- No two keywords begin one text. -/
theorem eq_of_mem_keywords {s s' : Kind × List Char} (hs : s ∈ Kind.keywords)
    (hs' : s' ∈ Kind.keywords) (h : s.2 <+: cs) (h' : s'.2 <+: cs) : s = s' := by
  have hunique : ∀ s ∈ Kind.keywords, ∀ s' ∈ Kind.keywords, s.2 <+: s'.2 → s = s' := by decide
  rcases List.prefix_or_prefix_of_prefix h h' with hp | hp
  · exact hunique s hs s' hs' hp
  · exact (hunique s' hs' s hs hp).symm

/-- A keyword is read wherever one stands, whatever is behind it. -/
theorem read_keyword {s : Kind × List Char} (hs : s ∈ Kind.keywords) (h : s.2 <+: c :: r) :
    read c r = .ok ⟨s.1, s.2⟩ := by
  have hkeyword : keyword? (c :: r) = some ⟨s.1, s.2⟩ := by
    cases hk : keyword? (c :: r) with
    | none => exact absurd h (keyword?_eq_none.mp hk s hs)
    | some x =>
      obtain ⟨hx, hprefix⟩ := keyword?_eq_some hk
      rw [eq_of_mem_keywords hs hx h hprefix]
  obtain ⟨d, v, hd, hbegins⟩ := exists_of_mem_keywords hs
  obtain rfl : d = c := by
    rw [hd] at h
    exact (List.cons_prefix_cons.mp h).1
  have hc := continuesName_of_beginsName hbegins
  simp only [read, symbol?_eq_none (.inl hc), if_neg (not_quote_of_continuesName hc),
    number?_eq_none hbegins, hkeyword]

theorem isKeyword_of_mem_keywords {s : Kind × List Char} (hs : s ∈ Kind.keywords) (p : Position) :
    Token.IsKeyword ⟨s.1, String.ofList s.2, p⟩ := by
  simp only [Kind.keywords, List.mem_cons, List.not_mem_nil, or_false] at hs
  rcases hs with rfl | rfl | rfl
  · exact .inl ⟨rfl, .inl rfl⟩
  · exact .inl ⟨rfl, .inr rfl⟩
  · exact .inr ⟨rfl, rfl⟩

end Lexeme

namespace Cursor

open Lexeme

/-! ## Words in a text -/

/-- Behind a name there is nothing that the name could go on with. -/
theorem endsName_of_next {c after : Cursor} {t : Token} (h : c.next = (.ok t, after))
    (ht : t.kind = .name) : EndsName after.rest := by
  obtain ⟨g, x, ⟨-, -, d, r, hsplit, hread⟩, rfl, -⟩ := exists_of_next h (by rw [ht]; decide)
  have hsymbols : ∀ s ∈ Kind.symbols, s.1 ≠ .name := by decide
  have hkeywords : ∀ s ∈ Kind.keywords, s.1 ≠ .name := by decide
  cases found_of_read hread with
  | symbol hs => exact absurd ht (hsymbols _ hs)
  | keyword hs => exact absurd ht (hkeywords _ hs)
  | string | number => cases ht
  | name hd hk =>
    have hr : r.takeWhile continuesName ++ after.rest = r := (List.cons.inj hsplit).2
    have hsame : r.takeWhile continuesName ++ after.rest =
        r.takeWhile continuesName ++ r.dropWhile continuesName := by
      rw [hr, List.takeWhile_append_dropWhile]
    rw [EndsName, List.append_cancel_left hsame, List.takeWhile_eq_nil_iff]
    exact List.dropWhile_get_zero_not continuesName r

/-- A word that no keyword begins is read as a name, as far as it goes. -/
theorem next_word {w s : List Char} (hw : IsName w) (hs : EndsName s) (p : Position) :
    (⟨w ++ s, p⟩ : Cursor).next =
      (.ok ⟨.name, String.ofList w, p⟩, ⟨s, p.advance w⟩) := by
  obtain ⟨c, r, rfl, hc, hr, hk⟩ := hw
  have hgap : gap (c :: (r ++ s)) = [] := gap_of_continuesName (continuesName_of_beginsName hc) _
  exact next_lexeme hgap (read_name hc hr hk hs) rfl p

/-- A keyword is read off the beginning of a text. -/
theorem next_keyword {k : Kind × List Char} (hk : k ∈ Kind.keywords) (cs : List Char)
    (p : Position) : (⟨k.2 ++ cs, p⟩ : Cursor).next =
      (.ok ⟨k.1, String.ofList k.2, p⟩, ⟨cs, p.advance k.2⟩) := by
  obtain ⟨c, r, hcr, hc⟩ := exists_of_mem_keywords hk
  have hread : read c (r ++ cs) = .ok ⟨k.1, k.2⟩ :=
    read_keyword hk (by rw [hcr]; exact List.prefix_append (c :: r) cs)
  have hgap : gap (c :: (r ++ cs)) = [] := gap_of_continuesName (continuesName_of_beginsName hc) _
  have hstring : k.1 ≠ .string := by
    have hkeywords : ∀ s ∈ Kind.keywords, s.1 ≠ .string := by decide
    exact hkeywords k hk
  have hnext := next_lexeme hgap hread (by rw [hcr]; rfl) p
  rwa [Lexeme.text, if_neg hstring, ← List.cons_append, ← hcr] at hnext

/-- **Keywords are read off a text until none begins what is left.** -/
theorem exists_keywords (w s : List Char) (p : Position) :
    ∃ ks r ts, w = ks.flatMap String.toList ++ r ∧ ¬ BeginsWithKeyword r ∧
      (⟨w ++ s, p⟩ : Cursor).Reads ts ⟨r ++ s, p.advance (ks.flatMap String.toList)⟩ ∧
      ts.map Token.text = ks ∧ ∀ t ∈ ts, t.IsKeyword := by
  by_cases hw : BeginsWithKeyword w
  · obtain ⟨k, hk, v, rfl⟩ := beginsWithKeyword_iff.mp hw
    have hlt : v.length < (k.2 ++ v).length := by
      obtain ⟨c, r, hcr, -⟩ := exists_of_mem_keywords hk
      rw [hcr, List.length_append, List.length_cons]
      omega
    obtain ⟨ks, r, ts, rfl, hr, hreads, htexts, hts⟩ := exists_keywords v s (p.advance k.2)
    have hkeyword := isKeyword_of_mem_keywords hk p
    have hkind : k.1 ≠ .endOfInput := by
      have hkeywords : ∀ s ∈ Kind.keywords, s.1 ≠ .endOfInput := by decide
      exact hkeywords k hk
    refine ⟨String.ofList k.2 :: ks, r, ⟨k.1, String.ofList k.2, p⟩ :: ts, ?_, hr, ?_, ?_,
      List.forall_mem_cons.mpr ⟨hkeyword, hts⟩⟩
    · simp
    · have hnext := next_keyword hk (ks.flatMap String.toList ++ r ++ s) p
      rw [List.append_assoc, List.flatMap_cons, String.toList_ofList, Position.advance_append]
      exact .cons hnext hkind hreads
    · rw [List.map_cons, htexts]
  · exact ⟨[], w, [], rfl, hw, .nil _, rfl, List.forall_mem_nil _⟩
termination_by w.length

end Cursor

/-- **Words are split at keywords, and only from the front.** A name that is read is a word that no
    keyword begins, and nothing stands behind it that it could go on with. A word with nothing behind
    it that it could go on with is read as one name if no keyword begins it. Otherwise it consists of
    keywords and a rest that no keyword begins, and that many tokens are read: the keywords, one by
    one, so that the rest is left. -/
theorem words_scanned :
    (∀ (c after : Cursor) (t : Token), c.next = (.ok t, after) → t.kind = .name →
      Lexeme.IsWord t.text.toList ∧ ¬ Lexeme.BeginsWithKeyword t.text.toList ∧
        ∀ d ∈ after.rest.head?, d.isAlphanum = false ∧ d ≠ '_') ∧
    ∀ (w s : String) (p : Position), Lexeme.IsWord w.toList →
      (∀ d ∈ s.toList.head?, d.isAlphanum = false ∧ d ≠ '_') →
      (¬ Lexeme.BeginsWithKeyword w.toList → (⟨(w ++ s).toList, p⟩ : Cursor).next =
        (.ok ⟨.name, w, p⟩, ⟨s.toList, p.advance w.toList⟩)) ∧
      (Lexeme.BeginsWithKeyword w.toList → ∃ ks r ts, ks ≠ [] ∧
        w.toList = ks.flatMap String.toList ++ r ∧ ¬ Lexeme.BeginsWithKeyword r ∧
        (⟨(w ++ s).toList, p⟩ : Cursor).Reads ts
          ⟨r ++ s.toList, p.advance (ks.flatMap String.toList)⟩ ∧
        ts.map Token.text = ks ∧ ∀ t ∈ ts, t.IsKeyword) := by
  constructor
  · intro c after t h ht
    obtain ⟨hword, hkeyword⟩ := Lexeme.isName_iff.mp (Cursor.isName_of_next h ht)
    exact ⟨hword, hkeyword, endsName_iff.mp (Cursor.endsName_of_next h ht)⟩
  · intro w s p hw hs
    rw [String.toList_append]
    constructor
    · intro hkeyword
      have hname : Lexeme.IsName w.toList := Lexeme.isName_iff.mpr ⟨hw, hkeyword⟩
      have hnext := Cursor.next_word hname (endsName_iff.mpr hs) p
      rwa [String.ofList_toList] at hnext
    · intro hkeyword
      obtain ⟨ks, r, ts, hsplit, hr, hreads, htexts, hts⟩ :=
        Cursor.exists_keywords w.toList s.toList p
      refine ⟨ks, r, ts, ?_, hsplit, hr, hreads, htexts, hts⟩
      rintro rfl
      rw [hsplit] at hkeyword
      exact hr hkeyword

/-- Two keywords stand in front of a name, and the third is a part of it. -/
theorem words_scanned_keywords :
    ∃ ks r ts, "truenullify_false".toList = ks.flatMap String.toList ++ r ∧
      (⟨("truenullify_false" ++ " x").toList, .start .origin⟩ : Cursor).Reads ts
        ⟨r ++ " x".toList, (Position.start .origin).advance (ks.flatMap String.toList)⟩ ∧
      ts.map Token.text = ks ∧ ∀ t ∈ ts, t.IsKeyword := by
  have hword : Lexeme.IsWord "truenullify_false".toList :=
    ⟨_, _, rfl, rfl, List.all_eq_true.mp rfl⟩
  obtain ⟨ks, r, ts, -, hsplit, -, hreads, htexts, hts⟩ :=
    (words_scanned.2 "truenullify_false" " x" (.start .origin) hword (endsName_iff.mp rfl)).2
      ⟨"true", by simp, by decide⟩
  exact ⟨ks, r, ts, hsplit, hreads, htexts, hts⟩

end EL
