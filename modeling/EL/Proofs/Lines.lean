import EL.Proofs.Composition

/-!
# A text in two lines

A line feed ends every token but a string. So if no quote stands behind it, a scan that comes to the
end of the text has come to the end of the first line before: **a text with a line feed in it is
scanned line by line** (`Cursor.Scans.exists_of_line`), and each of the two lines can be scanned by
itself.
-/

set_option autoImplicit false

namespace EL

open Text (isBlank)

/-! ## No blanks in numbers -/

theorem not_isBlank_of_mem_digits {cs : List Char} : ∀ d ∈ digits cs, isBlank d = false := fun _ hd =>
  Lexeme.not_isBlank_of_continuesName (Lexeme.continuesName_of_isDigit (List.mem_takeWhile_imp hd))

theorem not_isBlank_of_mem_fraction {cs : List Char} : ∀ d ∈ fraction cs, isBlank d = false := by
  unfold fraction
  split
  · exact List.forall_mem_cons.mpr ⟨rfl, not_isBlank_of_mem_digits⟩
  · exact List.forall_mem_nil _

theorem not_isBlank_of_mem_exponentSign (cs : List Char) :
    ∀ d ∈ exponentSign cs, isBlank d = false := by
  unfold exponentSign
  split
  · exact List.forall_mem_singleton.mpr rfl
  · exact List.forall_mem_singleton.mpr rfl
  · exact List.forall_mem_nil _

theorem not_isBlank_of_mem_exponentPart {cs power : List Char} (h : exponentPart? cs = some power) :
    ∀ d ∈ power, isBlank d = false := by
  cases cs with
  | nil =>
    cases h
    exact List.forall_mem_nil _
  | cons c r =>
    rw [exponentPart?_cons] at h
    split at h
    · rename_i hmark
      split at h <;> cases h
      have hc : isBlank c = false := by rcases hmark with rfl | rfl <;> rfl
      rw [List.forall_mem_append, List.forall_mem_cons]
      exact ⟨⟨hc, not_isBlank_of_mem_exponentSign r⟩, not_isBlank_of_mem_digits⟩
    · cases h
      exact List.forall_mem_nil _

namespace Lexeme

theorem not_isBlank_of_number? {cs : List Char} {x : Lexeme} (h : number? cs = some (.ok x)) :
    ∀ d ∈ x.spelling, isBlank d = false := by
  unfold number? at h
  split at h
  · rename_i w hw
    split at h <;> cases h
    obtain ⟨whole, part, power, rest, -, rfl, rfl, hpart, hpower, -⟩ := decimalSpelling?_eq_some hw
    rw [List.forall_mem_append, List.forall_mem_append]
    exact ⟨not_isBlank_of_mem_digits, hpart ▸ not_isBlank_of_mem_fraction,
      not_isBlank_of_mem_exponentPart hpower⟩
  · obtain ⟨w, hw, hx⟩ := Option.map_eq_some_iff.mp h
    cases hx
    unfold integerSpelling? at hw
    dsimp only at hw
    split at hw <;> cases hw
    exact not_isBlank_of_mem_digits

/-! ## No blanks in lexemes -/

/-- The last character is a quote. -/
def EndsInQuote (w : List Char) : Prop := ∃ q, w.getLast? = some q ∧ (q = '"' ∨ q = '\'')

/-- **Only strings have blanks in them**, and those end with a quote. -/
theorem endsInQuote_of_blank {c : Char} {r : List Char} {x : Lexeme} (h : read c r = .ok x)
    {b : Char} (hmem : b ∈ x.spelling) (hb : isBlank b = true) : EndsInQuote x.spelling := by
  have hsymbols : ∀ s ∈ Kind.symbols, s.2.any isBlank = false := by decide
  have hkeywords : ∀ s ∈ Kind.keywords, s.2.any isBlank = false := by decide
  by_contra hnot
  suffices ∀ d ∈ x.spelling, isBlank d = false by
    rw [this b hmem] at hb
    cases hb
  cases found_of_read h with
  | symbol hs => simpa using hsymbols _ hs
  | keyword hs => simpa using hkeywords _ hs
  | string hquote => exact absurd ⟨c, List.getLast?_concat, hquote⟩ hnot
  | number hnumber => exact not_isBlank_of_number? hnumber
  | name hc =>
    refine List.forall_mem_cons.mpr ⟨?_, fun d hd => ?_⟩
    · exact not_isBlank_of_continuesName (continuesName_of_beginsName hc)
    · exact not_isBlank_of_continuesName (List.mem_takeWhile_imp hd)

end Lexeme

/-! ## The end of a line -/

section
variable {a b g cs : List Char} {x : Lexeme}

/-- A gap that goes on behind a line is one up to the end of the line. -/
theorem gapFrom_of_line {u : Bool} (h : a <+: gapFrom u (a ++ '\n' :: b)) : gapFrom u a = a := by
  induction a generalizing u with
  | nil => rfl
  | cons c a ih =>
    obtain ⟨s, hs⟩ := h
    have hhead : (a ++ '\n' :: b).head? = some '/' ↔ a.head? = some '/' := by cases a <;> simp
    obtain ⟨u', hu', hrest⟩ := gapFrom_cons_eq hs.symm hhead
    rw [hrest, ih ⟨s, hu'.symm⟩]

/-- **The first lexeme of a text stands in its first line**, unless that line is a gap, or there are
    quotes in the second. -/
theorem BeginsWith.of_line (h : BeginsWith (a ++ '\n' :: b) g x cs) (ha : EL.gap a ≠ a)
    (hb : ∀ d ∈ b, d ≠ '"' ∧ d ≠ '\'') :
    ∃ v, a = g ++ (x.spelling ++ v) ∧ cs = v ++ '\n' :: b := by
  obtain ⟨hsplit, hgap, c, r, -, hread⟩ := h
  rw [← List.append_assoc] at hsplit
  rcases List.append_eq_append_iff.mp hsplit with ⟨w, hw, hrest⟩ | ⟨v, rfl, hcs⟩
  · cases w with
    | nil => exact ⟨[], by simpa using hw.symm, by simpa using hrest.symm⟩
    | cons d w =>
      obtain ⟨rfl, hbw⟩ := List.cons.inj hrest
      rcases List.append_eq_append_iff.mp hw with ⟨s, rfl, hs⟩ | ⟨s, hs, -⟩
      · -- The line feed stands in the lexeme, which is a string then, and its quote comes later.
        obtain ⟨q, hlast, hq⟩ := Lexeme.endsInQuote_of_blank hread (b := '\n') (by simp [hs]) rfl
        rw [hs, List.getLast?_append_cons] at hlast
        rcases List.mem_cons.mp (List.mem_of_getLast? hlast) with rfl | hmem
        · rcases hq with hq | hq <;> cases hq
        · obtain ⟨hne, hne'⟩ := hb q (hbw ▸ List.mem_append_left _ hmem)
          exact hq.elim (absurd · hne) (absurd · hne')
      · have hprefix : a <+: gapFrom false (a ++ '\n' :: b) := ⟨s, hs.symm.trans hgap.symm⟩
        exact absurd (gapFrom_of_line hprefix) ha
  · exact ⟨v, by simp, hcs⟩

theorem beginsWithPoint_of_line (h : beginsWithPoint (a ++ '\n' :: b) = false) :
    beginsWithPoint a = false := by
  rw [Bool.eq_false_iff] at h ⊢
  intro hpoint
  obtain ⟨r, rfl, hr⟩ := exists_of_beginsWithPoint hpoint
  refine h (bne_iff_ne.mpr ?_)
  cases r with
  | nil => exact show some '\n' ≠ some '.' by decide
  | cons => exact hr

end

namespace Cursor

/-- A line that is a gap is passed, with its end. -/
theorem tokens_of_gap {a : List Char} (ha : EL.gap a = a) (b : List Char) (p : Position) :
    (⟨a ++ '\n' :: b, p⟩ : Cursor).tokens = (⟨b, p.advance (a ++ ['\n'])⟩ : Cursor).tokens := by
  obtain ⟨q, hq, -, hstream⟩ := (Reads.nil ⟨a, p⟩).line ha b
  obtain rfl : q = [] := List.self_eq_append_left.mp hq
  rw [tokens, tokens, hstream]
  rfl

/-- **A text in two lines is scanned line by line**, if there are no quotes in the second. -/
theorem Scans.exists_of_line {b : List Char} (hb : ∀ d ∈ b, d ≠ '"' ∧ d ≠ '\'') {ts : List Token} :
    ∀ {a : List Char} {p : Position}, (⟨a ++ '\n' :: b, p⟩ : Cursor).Scans ts →
      ∃ us vs q, ts = us ++ vs ∧ (⟨a, p⟩ : Cursor).Scans us ∧ (⟨b, q⟩ : Cursor).Scans vs := by
  induction ts with
  | nil =>
    rintro a p ⟨stop, htokens, hstop⟩
    obtain ⟨after, hn, -⟩ := next_of_tokens htokens
    obtain ⟨hgap, -, -⟩ := next_eq_end hn hstop
    have ha : EL.gap a = a := gapFrom_of_line ⟨'\n' :: b, hgap.symm⟩
    rw [tokens_of_gap ha] at htokens
    exact ⟨[], [], _, rfl, ⟨_, tokens_of_end (next_of_gap ha) rfl, rfl⟩, stop, htokens, hstop⟩
  | cons t ts ih =>
    rintro a p ⟨stop, htokens, hstop⟩
    by_cases ha : EL.gap a = a
    · rw [tokens_of_gap ha] at htokens
      exact ⟨[], t :: ts, _, rfl, ⟨_, tokens_of_end (next_of_gap ha) rfl, rfl⟩, stop, htokens, hstop⟩
    · obtain ⟨after, hn, hmore⟩ := next_of_tokens htokens
      obtain ⟨ht, htokens'⟩ := hmore (by simp)
      obtain ⟨g, x, hx, rfl, hposition⟩ := exists_of_next hn ht
      obtain ⟨v, rfl, hv⟩ := hx.of_line ha hb
      obtain ⟨rest, position⟩ := after
      obtain rfl : rest = v ++ '\n' :: b := hv
      obtain ⟨us, vs, q, rfl, ⟨end', hus, hend⟩, hvs⟩ := ih ⟨stop, htokens', hstop⟩
      have hpoint : x.kind = .number → beginsWithPoint v = false := by
        intro hk
        obtain ⟨u, ws, hu⟩ := List.exists_cons_of_ne_nil
          (List.append_ne_nil_of_right_ne_nil (us ++ vs) (List.cons_ne_nil stop []))
        obtain ⟨_, hn', -⟩ := next_of_tokens (htokens'.trans (congrArg Except.ok hu))
        exact beginsWithPoint_of_line (beginsWithPoint_eq_false hx hk hn')
      have hshorter : MayReplace (v ++ '\n' :: b) v := fun w _ hw => hw.trans (List.prefix_append v _)
      have hn' := next_of_beginsWith (c := ⟨_, p⟩) (hx.replace hshorter hpoint)
      rw [← hposition] at hn'
      refine ⟨_ :: us, vs, q, rfl, ⟨end', ?_, hend⟩, hvs⟩
      rw [tokens_of_token hn' ht, hus]
      rfl

end Cursor

end EL
