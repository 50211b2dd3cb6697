import EL.Json
import EL.Proofs.Number.Written

/-!
# The compact form of JSON determines the value

Nothing in the compact form of a value says how long it is, but every form ends by itself: strings,
arrays and objects with their last character, words with their last letter, and numbers before the first
character that no number has. So **a value can be told from the text that begins with its compact form**
(`compact_append_inj`), whatever follows, if that cannot continue a number. Everything here is stated in
that way, for a form and the text behind it, because that is what an induction over the items of an array
needs.
-/

set_option autoImplicit false

namespace EL.Json

open Text (joinWith)

/-! ## Numbers -/

/-- May this character stand in a number? -/
def isNumeric (c : Char) : Bool := c.isDigit || c = '.' || c = 'e' || c = '+' || c = '-'

/-- A text that continues no number. -/
def EndsNumber (r : List Char) : Prop := ∀ c ∈ r.head?, isNumeric c = false

theorem isNumeric_of_isDigit {c : Char} (h : c.isDigit = true) : isNumeric c = true := by
  simp [isNumeric, h]

section
variable {r s w v : List Char} {m n : Nat}

/-- A number ends before the first character that no number has. -/
theorem numeric_append_inj (hw : ∀ c ∈ w, isNumeric c = true) (hv : ∀ c ∈ v, isNumeric c = true)
    (hr : EndsNumber r) (hs : EndsNumber s) (h : w ++ r = v ++ s) : w = v ∧ r = s := by
  have htake : ∀ {w r : List Char}, (∀ c ∈ w, isNumeric c = true) → EndsNumber r →
      (w ++ r).takeWhile isNumeric = w := by
    intro w r hw hr
    rw [List.takeWhile_append_of_pos hw]
    cases r with
    | nil => simp
    | cons c r =>
      have hc : isNumeric c = false := hr c rfl
      simp [hc]
  have hwv : w = v := by rw [← htake hw hr, h, htake hv hs]
  subst hwv
  exact ⟨rfl, List.append_cancel_left h⟩

theorem toList_count (n : Nat) : (count n).compact.toList = Nat.toDigits 10 n := by
  rw [compact, Nat.toString_eq_ofList_toDigits, String.toList_ofList]

theorem isDigit_of_mem_count {c : Char} (hc : c ∈ (count n).compact.toList) : c.isDigit = true := by
  rw [toList_count] at hc
  exact Nat.isDigit_of_mem_toDigits (by decide) (by decide) hc

theorem isNumeric_of_mem_count {c : Char} (hc : c ∈ (count n).compact.toList) :
    isNumeric c = true :=
  isNumeric_of_isDigit (isDigit_of_mem_count hc)

theorem count_injective (h : (count m).compact = (count n).compact) : m = n := by
  have htext := congrArg String.toList h
  rw [toList_count, toList_count] at htext
  rw [← Decimal.ofDigits_toDigits m, htext, Decimal.ofDigits_toDigits]

theorem toList_real (b : Bool) (m : Magnitude) :
    (real b m).compact.toList = Number.signText b ++ m.jsonText := by
  rw [compact, realText, String.toList_ofList]

/-- The numeral of a double has a digit first, and something behind it that is no digit. -/
theorem numeral_isNumeric {cs : List Char} (h : RealNumeral cs) :
    (∃ c r, cs = c :: r ∧ c.isDigit = true) ∧ (∀ c ∈ cs, isNumeric c = true) ∧
      ∃ c ∈ cs, c.isDigit = false := by
  cases h with
  | @pointed w f hw hne hf =>
    obtain ⟨c, r, rfl⟩ := List.exists_cons_of_ne_nil hne
    refine ⟨⟨c, _, rfl, hw c List.mem_cons_self⟩, fun x hx => ?_, '.', by simp, rfl⟩
    rcases List.mem_append.mp hx with hx | hx
    · exact isNumeric_of_isDigit (hw x hx)
    · rcases List.mem_cons.mp hx with rfl | hx
      · rfl
      · exact isNumeric_of_isDigit (hf x hx)
  | @scientific w f ds sign hw hne hf hsign hds =>
    obtain ⟨c, r, rfl⟩ := List.exists_cons_of_ne_nil hne
    refine ⟨⟨c, _, rfl, hw c List.mem_cons_self⟩, fun x hx => ?_, 'e', by simp, rfl⟩
    simp only [List.mem_append, List.mem_cons] at hx
    rcases hx with hx | hx | rfl | rfl | hx
    · exact isNumeric_of_isDigit (hw x (List.mem_cons.mpr hx))
    · rcases hf x hx with hx | rfl
      · exact isNumeric_of_isDigit hx
      · rfl
    · rfl
    · rcases hsign with rfl | rfl <;> rfl
    · exact isNumeric_of_isDigit (hds x hx)

variable {b b' : Bool} {x y : Magnitude}

theorem isNumeric_of_mem_real {c : Char} (hc : c ∈ (real b x).compact.toList) :
    isNumeric c = true := by
  rw [toList_real] at hc
  rcases List.mem_append.mp hc with hc | hc
  · cases b with
    | false => cases hc
    | true =>
      rw [List.mem_singleton.mp hc]
      rfl
  · exact (numeral_isNumeric x.jsonText_reads.1).2.1 c hc

/-- A double is not written as a count. -/
theorem real_ne_count : (real b x).compact ≠ (count n).compact := by
  intro h
  obtain ⟨-, -, c, hc, hdigit⟩ := numeral_isNumeric x.jsonText_reads.1
  have hmem : c ∈ (count n).compact.toList := by
    rw [← h, toList_real]
    exact List.mem_append_right _ hc
  rw [isDigit_of_mem_count hmem] at hdigit
  cases hdigit

/-- Two doubles that are written alike are the same, and so are their signs. -/
theorem real_injective (h : (real b x).compact = (real b' y).compact) : b = b' ∧ x = y := by
  have htext := congrArg String.toList h
  rw [toList_real, toList_real] at htext
  obtain ⟨c, r, hx, hc⟩ := (numeral_isNumeric x.jsonText_reads.1).1
  obtain ⟨d, s, hy, hd⟩ := (numeral_isNumeric y.jsonText_reads.1).1
  -- A sign is no digit, so neither text can have one where the other has none.
  cases b with
  | true =>
    cases b' with
    | true => exact ⟨rfl, Magnitude.jsonText_injective (List.append_cancel_left htext)⟩
    | false =>
      rw [hy] at htext
      obtain ⟨rfl, -⟩ := List.cons.inj htext
      cases hd
  | false =>
    cases b' with
    | true =>
      rw [hx] at htext
      obtain ⟨rfl, -⟩ := List.cons.inj htext
      cases hc
    | false => exact ⟨rfl, Magnitude.jsonText_injective htext⟩

end

/-! ## Strings -/

/-- The value of a hexadecimal digit in lower case. -/
def hexValue (c : Char) : Nat := if c.isDigit then c.toNat - 48 else c.toNat - 87

/-- The character that a letter stands for behind a backslash. -/
def unescapeLetter (c : Char) : Char :=
  if c = 'b' then '\x08' else if c = 't' then '\t' else if c = 'n' then '\n'
  else if c = 'f' then '\x0c' else if c = 'r' then '\r' else c

/-- The character that a text between quotes begins with, and the text behind it. -/
def readChar? : List Char → Option (Char × List Char)
  | '\\' :: 'u' :: _ :: _ :: h :: l :: r => some (Char.ofNat (16 * hexValue h + hexValue l), r)
  | '\\' :: c :: r => some (unescapeLetter c, r)
  | c :: r => some (c, r)
  | [] => none

theorem hexValue_hexDigit : ∀ n < 16, hexValue (hexDigit n) = n := by decide

/-- **An escaped character is read as it was.** -/
theorem readChar?_escapeChar (c : Char) (r : List Char) :
    readChar? (escapeChar c ++ r) = some (c, r) := by
  unfold escapeChar
  split_ifs with hquote hslash h1 h2 h3 h4 h5 hcontrol
  · rw [hquote]; rfl
  · rw [hslash]; rfl
  · rw [h1]; rfl
  · rw [h2]; rfl
  · rw [h3]; rfl
  · rw [h4]; rfl
  · rw [h5]; rfl
  · show some (Char.ofNat (16 * hexValue (hexDigit (c.toNat / 16)) +
      hexValue (hexDigit (c.toNat % 16))), r) = some (c, r)
    rw [hexValue_hexDigit _ (by omega), hexValue_hexDigit _ (by omega), Nat.div_add_mod,
      Char.ofNat_toNat]
  · rw [List.singleton_append]
    unfold readChar?
    split
    · rename_i heq
      exact absurd (List.cons.inj heq).1 hslash
    · rename_i heq
      exact absurd (List.cons.inj heq).1 hslash
    · rename_i heq
      obtain ⟨rfl, rfl⟩ := List.cons.inj heq
      rfl
    · rename_i heq
      cases heq

section
variable {r s : List Char}

theorem escapeChar_append_inj {c d : Char} (h : escapeChar c ++ r = escapeChar d ++ s) :
    c = d ∧ r = s := by
  have hread := readChar?_escapeChar c r
  rw [h, readChar?_escapeChar d s] at hread
  cases hread
  exact ⟨rfl, rfl⟩

/-- An escaped character is not taken for the quote that ends a string. -/
theorem escapeChar_ne_quote (c : Char) (r : List Char) : escapeChar c ++ r ≠ '"' :: s := by
  intro h
  have hread := readChar?_escapeChar c r
  rw [h] at hread
  have hquote : some ('"', s) = some (c, r) := hread
  cases hquote
  cases h

/-- Escaped characters end at the first quote that is not escaped. -/
theorem escaped_append_inj : ∀ {cs ds : List Char},
    cs.flatMap escapeChar ++ '"' :: r = ds.flatMap escapeChar ++ '"' :: s → cs = ds ∧ r = s
  | [], [], h => ⟨rfl, (List.cons.inj h).2⟩
  | [], d :: ds, h => by
    rw [List.flatMap_cons, List.append_assoc] at h
    exact absurd h.symm (escapeChar_ne_quote d _)
  | c :: cs, [], h => by
    rw [List.flatMap_cons, List.append_assoc] at h
    exact absurd h (escapeChar_ne_quote c _)
  | c :: cs, d :: ds, h => by
    rw [List.flatMap_cons, List.flatMap_cons, List.append_assoc, List.append_assoc] at h
    obtain ⟨rfl, hrest⟩ := escapeChar_append_inj h
    obtain ⟨rfl, rfl⟩ := escaped_append_inj hrest
    exact ⟨rfl, rfl⟩

theorem toList_quoted_append (v : String) (r : List Char) :
    (quoted v).toList ++ r = '"' :: (v.toList.flatMap escapeChar ++ '"' :: r) := by
  simp [quoted]

/-- **A string ends with its closing quote.** -/
theorem quoted_append_inj {v w : String} (h : (quoted v).toList ++ r = (quoted w).toList ++ s) :
    v = w ∧ r = s := by
  rw [toList_quoted_append, toList_quoted_append] at h
  obtain ⟨hvw, rfl⟩ := escaped_append_inj (List.cons.inj h).2
  exact ⟨String.toList_inj.mp hvw, rfl⟩

end

/-! ## Values -/

/-- What can be told from the first character of a value. -/
inductive Form where
  | word
  | number
  | string
  | array
  | object
deriving DecidableEq

/-- The form of the values that begin with a character. -/
def Form.ofChar? (c : Char) : Option Form :=
  if c = 'n' ∨ c = 't' ∨ c = 'f' then some word
  else if c = '"' then some string
  else if c = '[' then some array
  else if c = '\x7b' then some object
  else if c.isDigit ∨ c = '-' then some number
  else none

/-- The form of a value. -/
def form : Json → Form
  | null | bool _ => .word
  | count _ | real _ _ => .number
  | string _ => .string
  | array _ => .array
  | object _ => .object

theorem Form.ofChar?_of_isDigit {c : Char} (h : c.isDigit = true) : ofChar? c = some number := by
  have hne : ∀ d : Char, d.isDigit = false → c ≠ d := by
    rintro d hd rfl
    rw [h] at hd
    cases hd
  simp [ofChar?, h, hne 'n' rfl, hne 't' rfl, hne 'f' rfl, hne '"' rfl, hne '[' rfl,
    hne '\x7b' rfl]

/-- A value begins with a character that tells its form. -/
theorem exists_form (j : Json) :
    ∃ c r, j.compact.toList = c :: r ∧ Form.ofChar? c = some j.form := by
  cases j with
  | null => exact ⟨'n', _, rfl, rfl⟩
  | bool b =>
    cases b with
    | true => exact ⟨'t', _, rfl, rfl⟩
    | false => exact ⟨'f', _, rfl, rfl⟩
  | count n =>
    obtain ⟨c, r, hcr⟩ := List.exists_cons_of_ne_nil (Nat.toDigits_ne_nil (n := n) (b := 10))
    refine ⟨c, r, (toList_count n).trans hcr, Form.ofChar?_of_isDigit ?_⟩
    refine isDigit_of_mem_count (n := n) ?_
    rw [toList_count, hcr]
    exact List.mem_cons_self
  | real b m =>
    obtain ⟨c, r, hcr, hc⟩ := (numeral_isNumeric m.jsonText_reads.1).1
    cases b with
    | true => exact ⟨'-', _, toList_real true m, rfl⟩
    | false => exact ⟨c, r, (toList_real false m).trans hcr, Form.ofChar?_of_isDigit hc⟩
  | string v =>
    have htext := toList_quoted_append v []
    rw [List.append_nil] at htext
    exact ⟨'"', _, htext, rfl⟩
  | array items => exact ⟨'[', _, by rw [compact, String.toList_append]; rfl, rfl⟩
  | object fields => exact ⟨'\x7b', _, by rw [compact, String.toList_append]; rfl, rfl⟩

/-! ### Lists -/

/-- The items of a list behind the first, each with a comma in front, and the closing bracket. -/
def listed (closing : Char) : List String → List Char → List Char
  | [], r => closing :: r
  | t :: ts, r => ',' :: (t.toList ++ listed closing ts r)

/-- The items of a list and the closing bracket. -/
def content (closing : Char) : List String → List Char → List Char
  | [], r => closing :: r
  | t :: ts, r => t.toList ++ listed closing ts r

theorem toList_joinWith_append (closing : Char) (r : List Char) : ∀ ts : List String,
    (joinWith "," ts).toList ++ closing :: r = content closing ts r
  | [] => rfl
  | [t] => rfl
  | t :: u :: ts => by
    have hrest := toList_joinWith_append closing r (u :: ts)
    rw [Text.joinWith_cons_cons, String.toList_append, String.toList_append, List.append_assoc,
      List.append_assoc, hrest]
    rfl

theorem toList_array_append (items : List Json) (r : List Char) :
    (array items).compact.toList ++ r = '[' :: content ']' (compactItems items) r := by
  rw [← toList_joinWith_append]
  simp [compact]

theorem toList_object_append (fields : List (String × Json)) (r : List Char) :
    (object fields).compact.toList ++ r = '\x7b' :: content '\x7d' (compactFields fields) r := by
  rw [← toList_joinWith_append]
  simp [compact]

theorem toList_field_append (key : String) (j : Json) (r : List Char) :
    (quoted key ++ (":" ++ j.compact)).toList ++ r =
      (quoted key).toList ++ ':' :: (j.compact.toList ++ r) := by
  simp

theorem endsNumber_listed {closing : Char} (hclosing : isNumeric closing = false) (ts : List String)
    (r : List Char) : EndsNumber (listed closing ts r) := by
  intro c hc
  cases ts with
  | nil =>
    cases hc
    exact hclosing
  | cons t ts =>
    cases hc
    rfl

/-- Does this text begin with a character other than a closing bracket? -/
def OpensBefore (closing : Char) (t : String) : Prop := ∃ c r, t.toList = c :: r ∧ c ≠ closing

/-- Between two lists of such texts, the first items make no difference. -/
theorem listed_of_content {closing : Char} {r s : List Char} {ts us : List String}
    (hts : ∀ t ∈ ts, OpensBefore closing t) (hus : ∀ t ∈ us, OpensBefore closing t)
    (h : content closing ts r = content closing us s) :
    listed closing ts r = listed closing us s := by
  cases ts with
  | nil =>
    cases us with
    | nil => exact h
    | cons u us =>
      obtain ⟨c, v, hu, hc⟩ := hus u List.mem_cons_self
      rw [content, content, hu] at h
      exact absurd (List.cons.inj h).1.symm hc
  | cons t ts =>
    cases us with
    | nil =>
      obtain ⟨c, v, ht, hc⟩ := hts t List.mem_cons_self
      rw [content, content, ht] at h
      exact absurd (List.cons.inj h).1 hc
    | cons u us => exact congrArg (',' :: ·) h

theorem opensBefore_items : ∀ as : List Json, ∀ t ∈ compactItems as, OpensBefore ']' t
  | [], _, ht => by cases ht
  | a :: as, t, ht => by
    rcases List.mem_cons.mp ht with rfl | ht
    · obtain ⟨c, r, ha, hc⟩ := exists_form a
      refine ⟨c, r, ha, ?_⟩
      rintro rfl
      cases hc
    · exact opensBefore_items as t ht

theorem opensBefore_fields : ∀ as : List (String × Json), ∀ t ∈ compactFields as, OpensBefore '\x7d' t
  | [], _, ht => by cases ht
  | (key, a) :: as, t, ht => by
    rcases List.mem_cons.mp ht with rfl | ht
    · have htext := toList_quoted_append key (":" ++ a.compact).toList
      rw [← String.toList_append] at htext
      exact ⟨'"', _, htext, by decide⟩
    · exact opensBefore_fields as t ht

theorem form_eq {a b : Json} {r s : List Char} (h : a.compact.toList ++ r = b.compact.toList ++ s) :
    a.form = b.form := by
  obtain ⟨c, v, ha, hc⟩ := exists_form a
  obtain ⟨d, w, hb, hd⟩ := exists_form b
  rw [ha, hb] at h
  obtain ⟨rfl, -⟩ := List.cons.inj h
  exact Option.some.inj (hc.symm.trans hd)

section
variable {r s : List Char} (hr : EndsNumber r) (hs : EndsNumber s)
include hr hs

theorem count_append_inj {n : Nat} {j : Json} (h : (count n).compact.toList ++ r = j.compact.toList ++ s) :
    count n = j ∧ r = s := by
  have hn : ∀ c ∈ (count n).compact.toList, isNumeric c = true := fun c hc => isNumeric_of_mem_count hc
  cases j with
  | count m =>
    obtain ⟨htext, rfl⟩ := numeric_append_inj hn (fun c hc => isNumeric_of_mem_count hc) hr hs h
    exact ⟨congrArg count (count_injective (String.toList_inj.mp htext)), rfl⟩
  | real b m =>
    obtain ⟨htext, -⟩ := numeric_append_inj hn (fun c hc => isNumeric_of_mem_real hc) hr hs h
    exact absurd (String.toList_inj.mp htext).symm real_ne_count
  | _ => cases form_eq h

theorem real_append_inj {b : Bool} {m : Magnitude} {j : Json}
    (h : (real b m).compact.toList ++ r = j.compact.toList ++ s) : real b m = j ∧ r = s := by
  have hm : ∀ c ∈ (real b m).compact.toList, isNumeric c = true := fun c hc => isNumeric_of_mem_real hc
  cases j with
  | count n => exact (count_append_inj hs hr h.symm).imp Eq.symm Eq.symm
  | real b' m' =>
    obtain ⟨htext, rfl⟩ := numeric_append_inj hm (fun c hc => isNumeric_of_mem_real hc) hr hs h
    obtain ⟨rfl, rfl⟩ := real_injective (String.toList_inj.mp htext)
    exact ⟨rfl, rfl⟩
  | _ => cases form_eq h

end

mutual

/-- **A value is determined by a text that begins with its compact form.** -/
theorem compact_append_inj : ∀ (a b : Json) {r s : List Char}, EndsNumber r → EndsNumber s →
    a.compact.toList ++ r = b.compact.toList ++ s → a = b ∧ r = s
  | null => by
    intro b r s _ _ h
    cases b with
    | null => exact ⟨rfl, List.append_cancel_left h⟩
    | bool v => cases v <;> simp [compact] at h
    | _ => cases form_eq h
  | bool u => by
    intro b r s _ _ h
    cases b with
    | null => cases u <;> simp [compact] at h
    | bool v => cases u <;> cases v <;> simp_all [compact]
    | _ => cases form_eq h
  | count _ => fun _ _ _ hr hs h => count_append_inj hr hs h
  | real _ _ => fun _ _ _ hr hs h => real_append_inj hr hs h
  | string v => by
    intro b r s _ _ h
    cases b with
    | string w =>
      obtain ⟨rfl, hrest⟩ := quoted_append_inj h
      exact ⟨rfl, hrest⟩
    | _ => cases form_eq h
  | array as => by
    intro b r s _ _ h
    cases b with
    | array bs =>
      rw [toList_array_append, toList_array_append] at h
      have hlisted := listed_of_content (opensBefore_items as) (opensBefore_items bs)
        (List.cons.inj h).2
      obtain ⟨rfl, hrest⟩ := items_append_inj as bs hlisted
      exact ⟨rfl, hrest⟩
    | _ => cases form_eq h
  | object as => by
    intro b r s _ _ h
    cases b with
    | object bs =>
      rw [toList_object_append, toList_object_append] at h
      have hlisted := listed_of_content (opensBefore_fields as) (opensBefore_fields bs)
        (List.cons.inj h).2
      obtain ⟨rfl, hrest⟩ := fields_append_inj as bs hlisted
      exact ⟨rfl, hrest⟩
    | _ => cases form_eq h

theorem items_append_inj : ∀ (as bs : List Json) {r s : List Char},
    listed ']' (compactItems as) r = listed ']' (compactItems bs) s → as = bs ∧ r = s
  | [], [], _, _, h => ⟨rfl, (List.cons.inj h).2⟩
  | [], _ :: _, _, _, h => by cases (List.cons.inj h).1
  | _ :: _, [], _, _, h => by cases (List.cons.inj h).1
  | a :: as, b :: bs, r, s, h => by
    obtain ⟨rfl, hrest⟩ := compact_append_inj a b (endsNumber_listed rfl _ _)
      (endsNumber_listed rfl _ _) (List.cons.inj h).2
    obtain ⟨rfl, rfl⟩ := items_append_inj as bs hrest
    exact ⟨rfl, rfl⟩

theorem fields_append_inj : ∀ (as bs : List (String × Json)) {r s : List Char},
    listed '\x7d' (compactFields as) r = listed '\x7d' (compactFields bs) s → as = bs ∧ r = s
  | [], [], _, _, h => ⟨rfl, (List.cons.inj h).2⟩
  | [], (_, _) :: _, _, _, h => by cases (List.cons.inj h).1
  | (_, _) :: _, [], _, _, h => by cases (List.cons.inj h).1
  | (k, a) :: as, (l, b) :: bs, r, s, h => by
    have hfield := (List.cons.inj h).2
    rw [toList_field_append, toList_field_append] at hfield
    obtain ⟨rfl, hvalue⟩ := quoted_append_inj hfield
    obtain ⟨rfl, hrest⟩ := compact_append_inj a b (endsNumber_listed rfl _ _)
      (endsNumber_listed rfl _ _) (List.cons.inj hvalue).2
    obtain ⟨rfl, rfl⟩ := fields_append_inj as bs hrest
    exact ⟨rfl, rfl⟩

end

end EL.Json
