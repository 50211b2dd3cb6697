import EL.Proofs.Number.Form
import EL.Proofs.Number.Literal
import EL.Proofs.Onward

/-!
# Which characters are scanned as a number

The scanner makes two attempts at a number, and the second, which takes digits alone, does not mind
a single point behind them. So `1` is scanned in front of the point of `1.x`, and what the second
attempt lets pass has to be caught by the next token: nothing begins there (`Lexeme.read_point`).
**In a text that is scanned to its end, a number is what a number should look like, and ends where
it should**; and whatever looks like that is scanned as one (`scanned_numbers`).
-/

set_option autoImplicit false

namespace EL

/-- What is scanned as an exponent is one. -/
theorem isExponent_of_exponentPart? {power rest : List Char}
    (h : exponentPart? (power ++ rest) = some power) : IsExponent power := by
  cases power with
  | nil => exact .absent
  | cons c r =>
    have hmark := exponentPart?_mark h
    rw [List.cons_append, exponentPart?_cons, if_pos hmark] at h
    split at h
    · cases h
    · rename_i hpower
      rw [← Option.some.inj h]
      exact .marked hmark (exponentSign_cases _) (isDigit_of_digits rfl) hpower

theorem isNumber_of_decimalSpelling? {cs w : List Char} (h : decimalSpelling? cs = some w) :
    IsNumber w := by
  obtain ⟨whole, part, power, rest, rfl, rfl, hwhole, hpart, hpower, hany, -, -⟩ :=
    decimalSpelling?_eq_some h
  have hdigits := isDigit_of_digits hwhole
  have hexponent := isExponent_of_exponentPart? hpower
  rcases fraction_cases hpart with rfl | ⟨f, rfl, hf⟩
  · refine .whole hdigits ?_ hexponent
    rintro rfl
    cases hany
  · refine .pointed hdigits hf ?_ hexponent
    intro hnil
    obtain ⟨rfl, rfl⟩ := List.append_eq_nil_iff.mp hnil
    cases hany

/-- **What is scanned as a number looks like one.** It ends where the attempt that found it lets a
    number end, which may be in front of a single point. -/
theorem Lexeme.isNumber_of_number? {cs : List Char} {x : Lexeme} (h : number? cs = some (.ok x)) :
    IsNumber x.spelling ∧ endsNumber (cs.drop x.spelling.length) = true := by
  unfold number? at h
  split at h
  · rename_i w hw
    split at h <;> cases h
    obtain ⟨whole, part, power, rest, rfl, rfl, -, -, -, -, -, hend⟩ := decimalSpelling?_eq_some hw
    refine ⟨isNumber_of_decimalSpelling? hw, ?_⟩
    have hsplit : whole ++ (part ++ (power ++ rest)) = (whole ++ (part ++ power)) ++ rest := by simp
    rwa [hsplit, List.drop_left]
  · obtain ⟨w, hw, hx⟩ := Option.map_eq_some_iff.mp h
    cases hx
    unfold integerSpelling? at hw
    simp only at hw
    split at hw <;> cases hw
    rename_i hend
    have hwhole := IsNumber.whole (isDigit_of_digits rfl) hend.1 .absent
    rw [List.append_nil] at hwhole
    exact ⟨hwhole, hend.2⟩

/-- **A number in a text that is scanned to its end** looks like a number, and something stands
    behind it that may. -/
theorem Cursor.isNumber_of_mem_tokens {c : Cursor} {ts : List Token} {t : Token}
    (h : c.tokens = .ok ts) (ht : t ∈ ts) (hk : t.kind = .number) :
    ∃ p s, c.rest = p ++ (t.text.toList ++ s) ∧ t.start = c.position.advance p ∧
      IsNumber t.text.toList ∧ FollowsNumber s := by
  obtain ⟨us, vs, rfl⟩ := List.append_of_mem ht
  have hne : t.kind ≠ .endOfInput := by
    rw [hk]
    decide
  obtain ⟨here, after, hreads, hn⟩ := exists_reads_of_tokens h
  obtain ⟨w, hw, hhere⟩ := hreads.onward
  obtain ⟨g, x, hx, rfl, -⟩ := exists_of_next hn hne
  obtain ⟨-, -, first, r, hr, hread⟩ := id hx
  have hnumber := Lexeme.number?_of_read hread hk
  rw [← hr] at hnumber
  obtain ⟨hspelling, hends⟩ := Lexeme.isNumber_of_number? hnumber
  rw [List.drop_left] at hends
  have htext : x.text = x.spelling := by
    rw [Lexeme.text, if_neg]
    rw [show x.kind = .number from hk]
    decide
  -- The scan goes on behind the number, so that no point can stand there.
  obtain ⟨ws, hws, heq⟩ := hreads.tokens_ok_iff.mp h
  obtain rfl := List.append_cancel_left heq
  obtain ⟨_, hafter, hvs⟩ := (tokens_ok_iff hn hne).mp hws
  obtain ⟨-, rfl⟩ := List.cons.inj hvs
  obtain ⟨u, vs, rfl⟩ : ∃ u us, vs = u :: us := by
    obtain ⟨us, stop, rfl, -⟩ := tokens_eq_ok after hafter
    cases us <;> exact ⟨_, _, rfl⟩
  obtain ⟨_, hn', -⟩ := next_of_tokens hafter
  have hpoint := beginsWithPoint_eq_false hx hk hn'
  refine ⟨w ++ g, after.rest, ?_, ?_, ?_, followsNumber_iff.mpr ⟨hends, hpoint⟩⟩
  · rw [String.toList_ofList, htext, hw, hx.split, List.append_assoc]
  · rw [hhere, Position.advance_append]
  · rwa [String.toList_ofList, htext]

/-- Where a number stands, nothing else is read, and no comment either. -/
theorem beginsWith_of_isNumber {w s : List Char} (hw : IsNumber w) (hs : FollowsNumber s)
    (hpoint : ¬ (w.getLast? = some '.' ∧ ['.', '.'] <+: s)) :
    BeginsWith (w ++ s) [] ⟨.number, w⟩ s := by
  obtain ⟨c, r, rfl, hc⟩ := hw.exists_cons
  refine ⟨rfl, ?_, c, r ++ s, rfl, Lexeme.read_number hw hs hpoint⟩
  rcases hc with hc | ⟨rfl, d, t, rfl, -⟩
  · exact Lexeme.gap_of_continuesName (Lexeme.continuesName_of_isDigit hc) _
  · rfl

/-- **Numbers are scanned exactly.** In a text that is scanned to its end, every number is a number,
    and what stands behind it is one of the things that may; and a number with one of them behind it
    is scanned as that, unless its last point would be the first of three. -/
theorem scanned_numbers :
    (∀ text l ts, (Cursor.ofText text l).tokens = .ok ts → ∀ t ∈ ts, t.kind = .number →
      ∃ p s, text.toList = p ++ (t.text.toList ++ s) ∧ t.start = (Position.start l).advance p ∧
        IsNumber t.text.toList ∧ FollowsNumber s ∧
        ∀ c r, s = c :: r → c.isAlpha = false ∧ c.isDigit = false ∧
          c ∉ ['"', '\'', '<', '>', '=', '!'] ∧ (c = '.' → r.head? = some '.')) ∧
    ∀ (w s : String) (p : Position), IsNumber w.toList → FollowsNumber s.toList →
      ¬ (w.toList.getLast? = some '.' ∧ ['.', '.'] <+: s.toList) →
      (⟨(w ++ s).toList, p⟩ : Cursor).next =
        (.ok ⟨.number, w, p⟩, ⟨s.toList, p.advance w.toList⟩) := by
  constructor
  · intro text l ts h t ht hk
    obtain ⟨p, s, htext, hstart, hnumber, hfollows⟩ := Cursor.isNumber_of_mem_tokens h ht hk
    exact ⟨p, s, htext, hstart, hnumber, hfollows, fun c r hs => hfollows.of_cons hs⟩
  · intro w s p hw hs hpoint
    have hbegins := beginsWith_of_isNumber hw hs hpoint
    rw [← String.toList_append] at hbegins
    have hnext := Cursor.next_of_beginsWith (c := ⟨(w ++ s).toList, p⟩) hbegins
    have htext : (⟨.number, w.toList⟩ : Lexeme).text = w.toList := if_neg Kind.noConfusion
    rw [hnext, htext, String.ofList_toList]
    rfl

/-- The two numbers of `1...5` are `1` and `.5`, since the first could only end with its point if no
    range followed; and `2.5e-3` is one number in front of a range. -/
theorem scanned_numbers_points :
    (∃ ts, (Cursor.ofText "1...5").tokens = .ok ts ∧
      ∀ t ∈ ts, t.kind = .number → IsNumber t.text.toList) ∧
    (⟨("2.5e-3" ++ "..7").toList, .start .origin⟩ : Cursor).next =
      (.ok ⟨.number, "2.5e-3", .start .origin⟩,
        ⟨"..7".toList, (Position.start .origin).advance "2.5e-3".toList⟩) := by
  have hscans : (Cursor.ofText "1...5").tokens = .ok (
      [⟨.number, "1", ⟨0, ⟨1, 1⟩⟩⟩, ⟨.range, "..", ⟨1, ⟨1, 2⟩⟩⟩, ⟨.number, ".5", ⟨3, ⟨1, 4⟩⟩⟩,
        ⟨.endOfInput, "", ⟨5, ⟨1, 6⟩⟩⟩] : List Token) :=
    Cursor.tokens_of_scanWithin 5 rfl
  constructor
  · refine ⟨_, hscans, fun t ht hk => ?_⟩
    obtain ⟨_, _, _, _, hnumber, _⟩ := scanned_numbers.1 "1...5" .origin _ hscans t ht hk
    exact hnumber
  · have hdigit : ∀ c : Char, c.isDigit = true → ∀ d ∈ [c], d.isDigit = true := by
      intro c hc d hd
      rwa [List.mem_singleton.mp hd]
    have hexponent : IsExponent ('e' :: (['-'] ++ ['3'])) :=
      .marked (.inl rfl) (.inr (.inr rfl)) (hdigit '3' rfl) (List.cons_ne_nil _ _)
    have hnumber : IsNumber (['2'] ++ '.' :: (['5'] ++ 'e' :: (['-'] ++ ['3']))) :=
      .pointed (hdigit '2' rfl) (hdigit '5' rfl) (List.cons_ne_nil _ _) hexponent
    exact scanned_numbers.2 "2.5e-3" "..7" _ hnumber (.range ['7']) (by decide)

end EL
