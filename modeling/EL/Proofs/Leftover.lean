import EL.Command.Check
import EL.Proofs.Lenient
import EL.Proofs.Tiling

/-!
# What a check leaves

A check shows which text was left over behind the expression, blanks at its ends aside. After a strict
check nothing should be left, for the parser has come to the end of the text. But comments are passed
on the way to the next token, and the cursor stays where the last token ended. So **what a strict
check leaves is the gap behind the expression** (`check_strict_unconsumed`): nothing if the gap is
blank, and otherwise all that there is from its first comment on.
-/

set_option autoImplicit false

namespace EL

open Text (isBlank trimBlank)

/-! ## Trimming -/

namespace Text

variable {cs u w : List Char} {c : Char}

/-- Nothing is left of a text that is blank, and of no other. -/
theorem trimBlank_eq_nil_iff : trimBlank cs = [] ↔ ∀ c ∈ cs, isBlank c = true := by
  rw [← List.dropWhile_eq_nil_iff, trimBlank, List.reverse_eq_nil_iff, List.dropWhile_eq_nil_iff]
  constructor
  · intro h
    by_contra hne
    obtain ⟨c, r, hcr⟩ := List.exists_cons_of_ne_nil hne
    have hhead := List.head?_dropWhile_not isBlank cs
    rw [hcr] at hhead
    have hc := h c (by simp [hcr])
    simp [hc] at hhead
  · intro h
    simp [h]

/-- Behind its first blanks, a text is kept up to its last character that is not blank at least. -/
theorem prefix_trimBlank (h : cs.dropWhile isBlank = u ++ c :: w) (hc : isBlank c = false) :
    u ++ [c] <+: trimBlank cs := by
  have hstop : (c :: u.reverse).dropWhile isBlank = c :: u.reverse :=
    List.dropWhile_cons_of_neg (by simp [hc])
  rw [trimBlank, h, List.reverse_append, List.reverse_cons, List.append_assoc,
    List.singleton_append, List.dropWhile_append, hstop]
  split
  · simp
  · simp

end Text

/-- A gap that is not blank has a comment in it, and begins with that, blanks aside. -/
theorem IsGap.exists_comment {last : Prop} {g : List Char} (h : IsGap last g)
    (hg : ¬ ∀ c ∈ g, isBlank c = true) : ∃ w, g.dropWhile isBlank = '/' :: '/' :: w := by
  induction h with
  | nil => exact absurd (List.forall_mem_nil _) hg
  | @blank c g hc _ ih =>
    obtain ⟨w, hw⟩ := ih fun hblank => hg (List.forall_mem_cons.mpr ⟨hc, hblank⟩)
    exact ⟨w, by rw [List.dropWhile_cons_of_pos hc, hw]⟩
  | comment | lastComment => exact ⟨_, List.dropWhile_cons_of_neg (by decide)⟩

/-! ## Strict parses -/

/-- A strict parse that succeeds has read all tokens of the text, and stops behind the last one. -/
theorem Cursor.exists_reads_of_parse {c stop : Cursor} {path : Option String} {limit : Option Nat}
    {e : Expr} (h : c.parse ⟨.strict, path, limit⟩ = (.ok e, stop)) :
    ∃ ts t after, c.Reads ts stop ∧ stop.next = (.ok t, after) ∧ t.kind = .endOfInput := by
  obtain ⟨ts, t, after, ha⟩ := Parser.exists_accepts_of_parse h
  refine ⟨ts, t, after, ha.reads, ha.next, ?_⟩
  by_contra ht
  rw [ha.parse_strict path, if_neg ht] at h
  cases h

/-- What is left of a text that was read to its end is a gap. -/
theorem Cursor.Reads.tiled_to_end {text : String} {ts : List Token} {stop after : Cursor} {t : Token}
    (h : (Cursor.ofText text).Reads ts stop) (hn : stop.next = (.ok t, after))
    (ht : t.kind = .endOfInput) : Tiled [] text.toList ts stop.rest ∧ IsGap True stop.rest := by
  obtain ⟨w, hw, -, htiled⟩ := h.tiled [] rfl
  have htext : text.toList = w ++ stop.rest := hw
  obtain ⟨hgap, -, -⟩ := Cursor.next_eq_end hn ht
  have hlast : IsGap (([] : List Char) = []) (gap stop.rest) :=
    isGap_gap (by rw [hgap, List.append_nil])
  rw [hgap] at hlast
  exact ⟨htext ▸ htiled stop.rest, hlast.imp fun _ => trivial⟩

/-! ## Checks -/

namespace Command

theorem exists_parse_of_check {o : CheckOptions} {r : CheckResult} (h : check o = .ok r) :
    ∃ e stop, (Cursor.ofText o.expression).parse
        ⟨if o.lenient then .lenient else .strict, o.path, o.maxDepth⟩ = (.ok e, stop) ∧
      r.unconsumed = String.ofList (trimBlank stop.rest) := by
  unfold check at h
  dsimp only at h
  split at h <;> cases h
  rename_i e stop hparse
  exact ⟨e, stop, hparse, rfl⟩

/-- **What a strict check leaves is the gap behind the expression.** Where a strict check succeeds,
    the text is its tokens with the gaps in front of them, and then a last gap, and what is left is
    that gap, blanks at its ends aside. It is nothing just if the gap is blank; if not, it begins with
    a comment. -/
theorem check_strict_unconsumed {o : CheckOptions} {r : CheckResult} (ho : o.lenient = false)
    (h : check o = .ok r) :
    ∃ ts last, (Cursor.ofText o.expression).Scans ts ∧
      Tiled [] o.expression.toList ts last ∧ IsGap True last ∧
      r.unconsumed = String.ofList (trimBlank last) ∧
      (r.unconsumed = "" ↔ ∀ c ∈ last, isBlank c = true) ∧
      (r.unconsumed ≠ "" → ['/', '/'] <+: r.unconsumed.toList) := by
  obtain ⟨e, stop, hparse, hr⟩ := exists_parse_of_check h
  rw [ho] at hparse
  obtain ⟨ts, t, after, hreads, hn, ht⟩ := Cursor.exists_reads_of_parse hparse
  obtain ⟨htiled, hgap⟩ := hreads.tiled_to_end hn ht
  have hscans : (Cursor.ofText o.expression).Scans ts :=
    ⟨t, hreads.tokens_ok_iff.mpr ⟨[t], Cursor.tokens_of_end hn ht, rfl⟩, ht⟩
  have hempty : r.unconsumed = "" ↔ ∀ c ∈ stop.rest, isBlank c = true := by
    rw [hr, ← Text.trimBlank_eq_nil_iff]
    exact String.ofList_eq_empty_iff
  refine ⟨ts, stop.rest, hscans, htiled, hgap, hr, hempty, fun hne => ?_⟩
  obtain ⟨w, hw⟩ := hgap.exists_comment fun hblank => hne (hempty.mpr hblank)
  rw [hr, String.toList_ofList]
  exact Text.prefix_trimBlank (u := ['/']) hw rfl

/-- The comment in this text comes behind all of its tokens. -/
theorem check_comment : check { expression := "a // c" } = .ok ⟨.source "a", ["a"], "// c"⟩ := by
  have ha : Parser.Accepts none .initial (Cursor.ofText "a // c") (.var "a" ⟨1, 1⟩)
      [⟨.name, "a", ⟨0, ⟨1, 1⟩⟩⟩] ⟨[' ', '/', '/', ' ', 'c'], ⟨1, ⟨1, 2⟩⟩⟩ _ _ :=
    ⟨.cons rfl (by decide) (.nil _), rfl, _, rfl, rfl⟩
  rw [check]
  dsimp only
  rw [if_neg (by decide), ha.parse_strict]
  rfl

/-- A strict check leaves a comment behind the expression. -/
theorem check_strict_unconsumed_comment :
    check { expression := "a // c" } = .ok ⟨.source "a", ["a"], "// c"⟩ ∧
      ['/', '/'] <+: "// c".toList := by
  obtain ⟨-, -, -, -, -, -, -, hcomment⟩ := check_strict_unconsumed rfl check_comment
  exact ⟨check_comment, hcomment (by decide)⟩

/-- Something can be left by a strict check. -/
theorem not_all_check_unconsumed :
    ¬ ∀ o r, o.lenient = false → check o = .ok r → r.unconsumed = "" := by
  intro hall
  exact absurd (hall _ _ rfl check_comment) (by decide)

end Command

end EL
