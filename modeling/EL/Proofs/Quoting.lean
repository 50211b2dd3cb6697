import EL.Expr.Source
import EL.Proofs.Tiling

/-!
# What stands between quotes

The scanner, `Text.escape` and `Text.unescape` go through a string from the left, two characters at
a time where the first is a backslash. Seen from a quote inside the string all that counts is how many
backslashes stand directly in front of it, and **a string ends at the first of its quotes that has
an even number of them** (`Lexeme.stringContent?_eq_some_iff`). No pairs are mentioned there, so
nothing depends on where one began to count them.

What was scanned in quotes of either kind may therefore be given new ones: its value, escaped, is
scanned as one string with the same value (`string_values_kept`).
-/

set_option autoImplicit false

namespace EL

/-! ## Backslashes -/

/-- How many backslashes a text ends with. -/
def backslashes (cs : List Char) : Nat := (cs.reverse.takeWhile (· = '\\')).length

/-- A text that ends with an even number of them changes nothing for what stands after it. -/
theorem backslashes_append {u : List Char} (hu : backslashes u % 2 = 0) (cs : List Char) :
    backslashes (u ++ cs) % 2 = backslashes cs % 2 := by
  simp only [backslashes] at hu ⊢
  rw [List.reverse_append, List.takeWhile_append]
  split
  · rename_i hall
    rw [List.length_append, hall]
    omega
  · rfl

theorem backslashes_pair (c : Char) : backslashes ['\\', c] % 2 = 0 := by
  by_cases hc : c = '\\' <;> simp [backslashes, hc]

theorem backslashes_singleton {c : Char} (hc : c ≠ '\\') : backslashes [c] = 0 := by
  simp [backslashes, hc]

/-! ## Contents -/

/-- What can stand between two quotes: every such quote in it has an odd number of backslashes
    before it, and it ends with an even number of them. -/
structure IsContent (quote : Char) (cs : List Char) : Prop where
  guarded : ∀ a b, cs = a ++ quote :: b → backslashes a % 2 = 1
  complete : backslashes cs % 2 = 0

namespace IsContent

variable {quote c : Char} {u cs : List Char}

theorem nil : IsContent quote [] := ⟨fun a b h => by simp at h, rfl⟩

theorem singleton (hc : c ≠ '\\') (hne : c ≠ quote) : IsContent quote [c] := by
  refine ⟨fun a b h => ?_, by rw [backslashes_singleton hc]⟩
  cases a with
  | nil => exact absurd (List.cons.inj h).1 hne
  | cons d a => simp at h

/-- A backslash guards the character after it, whatever that is. -/
theorem pair (hquote : quote ≠ '\\') (c : Char) : IsContent quote ['\\', c] := by
  refine ⟨fun a b h => ?_, backslashes_pair c⟩
  rcases a with _ | ⟨d, _ | ⟨e, a⟩⟩
  · exact absurd (List.cons.inj h).1.symm hquote
  · obtain ⟨rfl, -⟩ := List.cons.inj h
    rfl
  · simp at h

/-- A content in front changes nothing for what stands after it. -/
theorem append_iff (hu : IsContent quote u) : IsContent quote (u ++ cs) ↔ IsContent quote cs := by
  have heven := backslashes_append hu.complete
  constructor
  · rintro ⟨hguarded, hcomplete⟩
    refine ⟨fun a b h => ?_, (heven cs).symm.trans hcomplete⟩
    rw [← heven a]
    exact hguarded (u ++ a) b (by rw [h, List.append_assoc])
  · rintro ⟨hguarded, hcomplete⟩
    refine ⟨fun a b h => ?_, (heven cs).trans hcomplete⟩
    rcases List.append_eq_append_iff.mp h with ⟨v, rfl, hv⟩ | ⟨v, rfl, hv⟩
    · exact (heven v).trans (hguarded v b hv)
    · cases v with
      | nil => exact absurd (hguarded [] b hv.symm) (by decide)
      | cons d v =>
        obtain ⟨rfl, -⟩ := List.cons.inj hv
        exact hu.guarded a v rfl

theorem head_ne (h : IsContent quote (c :: cs)) : c ≠ quote := by
  rintro rfl
  exact absurd (h.guarded [] cs rfl) (by decide)

/-- A backslash that ends a content has one before it. -/
theorem not_backslash : ¬ IsContent quote ['\\'] := fun h => absurd h.complete (by decide)

end IsContent

namespace Lexeme

/-- **A string ends at the first of its quotes with an even number of backslashes before it.** -/
theorem stringContent?_eq_some_iff {quote : Char} (hquote : quote ≠ '\\') {cs content : List Char} :
    stringContent? quote cs = some content ↔
      IsContent quote content ∧ ∃ rest, cs = content ++ quote :: rest := by
  fun_induction stringContent? quote cs generalizing content with
  | case1 => simp
  | case2 =>
    constructor
    · intro h
      cases h
    rintro ⟨-, rest, h⟩
    cases content with
    | nil => exact absurd (List.cons.inj h).1.symm hquote
    | cons d content => simp at h
  | case3 c r ih =>
    rw [Option.map_eq_some_iff]
    constructor
    · rintro ⟨content, h, rfl⟩
      obtain ⟨hcontent, rest, rfl⟩ := ih.mp h
      exact ⟨(IsContent.pair hquote c).append_iff.mpr hcontent, rest, rfl⟩
    · rintro ⟨hcontent, rest, h⟩
      rcases content with _ | ⟨d, _ | ⟨e, content⟩⟩
      · exact absurd (List.cons.inj h).1.symm hquote
      · obtain ⟨rfl, -⟩ := List.cons.inj h
        exact absurd hcontent IsContent.not_backslash
      · obtain ⟨rfl, htail⟩ := List.cons.inj h
        obtain ⟨rfl, hr⟩ := List.cons.inj htail
        exact ⟨content, ih.mpr ⟨(IsContent.pair hquote c).append_iff.mp hcontent, rest, hr⟩, rfl⟩
  | case4 r hlone hpair =>
    constructor
    · intro h
      cases h
      exact ⟨IsContent.nil, r, rfl⟩
    · rintro ⟨hcontent, rest, h⟩
      cases content with
      | nil => rfl
      | cons d content =>
        obtain ⟨rfl, -⟩ := List.cons.inj h
        exact absurd rfl hcontent.head_ne
  | case5 c r hlone hpair hne ih =>
    have hc : c ≠ '\\' := by
      rintro rfl
      cases r with
      | nil => exact hlone rfl rfl
      | cons d s => exact hpair d s rfl rfl
    have hsingle := IsContent.singleton hc hne
    rw [Option.map_eq_some_iff]
    constructor
    · rintro ⟨content, h, rfl⟩
      obtain ⟨hcontent, rest, rfl⟩ := ih.mp h
      exact ⟨hsingle.append_iff.mpr hcontent, rest, rfl⟩
    · rintro ⟨hcontent, rest, h⟩
      cases content with
      | nil => exact absurd (List.cons.inj h).1 hne
      | cons d content =>
        obtain ⟨rfl, hr⟩ := List.cons.inj h
        exact ⟨content, ih.mpr ⟨hsingle.append_iff.mp hcontent, rest, hr⟩, rfl⟩

end Lexeme

/-! ## Strings in a text -/

namespace Cursor

/-- **A string that is scanned stands between its quotes.** -/
theorem isContent_of_next {c after : Cursor} {t : Token} (h : c.next = (.ok t, after))
    (ht : t.kind = .string) : ∃ quote, (quote = '"' ∨ quote = '\'') ∧
      c.skipGap.rest = quote :: (t.text.toList ++ quote :: after.rest) ∧
      IsContent quote t.text.toList := by
  obtain ⟨g, x, hx, rfl, -⟩ := exists_of_next h (by rw [ht]; decide)
  obtain ⟨hsplit, hgap, quote, r, -, hread⟩ := hx
  obtain ⟨hquote, content, hcontent, hspelling⟩ := Lexeme.string_of_read hread ht
  rw [String.toList_ofList, Lexeme.text_of_string ht hspelling]
  refine ⟨quote, hquote, ?_, ?_⟩
  · have hrest := c.gap_append_rest
    rw [hgap, hsplit] at hrest
    rw [List.append_cancel_left hrest, hspelling]
    simp
  · have hne : quote ≠ '\\' := by rcases hquote with rfl | rfl <;> decide
    exact ((Lexeme.stringContent?_eq_some_iff hne).mp hcontent).1

/-- An escaped value between double quotes is scanned up to the second of them. -/
theorem next_escaped (cs r : List Char) (p : Position) :
    (⟨'"' :: (Text.escape cs ++ ['"']) ++ r, p⟩ : Cursor).next =
      (.ok ⟨.string, String.ofList (Text.escape cs), p⟩,
        ⟨r, p.advance ('"' :: (Text.escape cs ++ ['"']))⟩) := by
  have hread := Lexeme.read_string cs r
  have hbegins : BeginsWith ('"' :: (Text.escape cs ++ ['"']) ++ r) []
      ⟨.string, '"' :: (Text.escape cs ++ ['"'])⟩ r :=
    ⟨rfl, rfl, '"', Text.escape cs ++ '"' :: r, by simp, hread⟩
  have hnext := next_of_beginsWith (c := ⟨'"' :: (Text.escape cs ++ ['"']) ++ r, p⟩) hbegins
  rwa [Lexeme.text_of_string rfl rfl] at hnext

theorem next_quoted (v s : String) (p : Position) :
    (⟨(Expr.quoted v ++ s).toList, p⟩ : Cursor).next =
      (.ok ⟨.string, Text.escapeString v, p⟩, ⟨s.toList, p.advance (Expr.quoted v).toList⟩) := by
  have htext : (Expr.quoted v).toList = '"' :: (Text.escape v.toList ++ ['"']) := by
    simp [Expr.quoted, Text.escapeString]
  rw [String.toList_append, htext]
  exact next_escaped v.toList s.toList p

theorem tokens_quoted (v : String) (l : Location) :
    (ofText (Expr.quoted v) l).tokens =
      .ok [⟨.string, Text.escapeString v, .start l⟩,
        ⟨.endOfInput, "", (Position.start l).advance (Expr.quoted v).toList⟩] := by
  have hnext := next_quoted v "" (.start l)
  rw [String.append_empty, String.toList_empty] at hnext
  have hend : ∀ q : Position, (⟨[], q⟩ : Cursor).tokens = .ok [⟨.endOfInput, "", q⟩] :=
    fun q => tokens_of_end (next_of_gap rfl) rfl
  exact (tokens_ok_iff hnext Kind.noConfusion).mpr ⟨_, hend _, rfl⟩

end Cursor

theorem Text.unescapeString_escapeString (v : String) :
    Text.unescapeString (Text.escapeString v) = v := by
  rw [unescapeString, escapeString, String.toList_ofList, unescape_escape, String.ofList_toList]

/-- **The values of strings survive their spelling.** Every value, escaped between double quotes,
    is scanned as one string whatever follows, and unescaped again. And every string that is scanned,
    in quotes of either kind, holds none of them unguarded, ends with no backslash that guards
    nothing, and can be replaced by its value, escaped between double quotes. -/
theorem string_values_kept :
    (∀ (v s : String) (p : Position),
      (⟨(Expr.quoted v ++ s).toList, p⟩ : Cursor).next =
          (.ok ⟨.string, Text.escapeString v, p⟩, ⟨s.toList, p.advance (Expr.quoted v).toList⟩) ∧
        Text.unescapeString (Text.escapeString v) = v) ∧
    ∀ (c after : Cursor) (t : Token), c.next = (.ok t, after) → t.kind = .string →
      (∃ quote, (quote = '"' ∨ quote = '\'') ∧
        c.skipGap.rest = quote :: (t.text.toList ++ quote :: after.rest) ∧
        IsContent quote t.text.toList) ∧
      ∀ l, ∃ u stop,
        (Cursor.ofText (Expr.quoted (Text.unescapeString t.text)) l).tokens = .ok [u, stop] ∧
          u.kind = .string ∧ stop.kind = .endOfInput ∧
          Text.unescapeString u.text = Text.unescapeString t.text := by
  constructor
  · intro v s p
    exact ⟨Cursor.next_quoted v s p, Text.unescapeString_escapeString v⟩
  · intro c after t h ht
    refine ⟨Cursor.isContent_of_next h ht, fun l => ?_⟩
    exact ⟨_, _, Cursor.tokens_quoted _ l, rfl, rfl, Text.unescapeString_escapeString _⟩

/-- In single quotes a double one needs no backslash, a single one keeps the one that guards it, and
    a backslash that is to end the string has one before it. -/
theorem string_values_kept_single_quotes :
    ∃ t after, (Cursor.ofText "'\"\\'\\\\' x").next = (.ok t, after) ∧ t.kind = .string ∧
      IsContent '\'' t.text.toList ∧
      ∃ u stop, (Cursor.ofText "\"\\\"\\\\'\\\\\"").tokens = .ok [u, stop] ∧
        Text.unescapeString u.text = Text.unescapeString t.text := by
  have hnext : (Cursor.ofText "'\"\\'\\\\' x").next =
      (.ok ⟨.string, "\"\\'\\\\", 0, ⟨1, 1⟩⟩, ⟨[' ', 'x'], ⟨7, ⟨1, 8⟩⟩⟩) := rfl
  obtain ⟨⟨quote, -, hrest, hcontent⟩, hvalue⟩ := string_values_kept.2 _ _ _ hnext rfl
  obtain ⟨u, stop, htokens, -, -, hu⟩ := hvalue .origin
  refine ⟨_, _, hnext, rfl, ?_, u, stop, ?_, hu⟩
  · obtain ⟨rfl, -⟩ := List.cons.inj hrest
    exact hcontent
  · have hquoted : Expr.quoted (Text.unescapeString "\"\\'\\\\") = "\"\\\"\\\\'\\\\\"" := rfl
    rwa [hquoted] at htokens

end EL
