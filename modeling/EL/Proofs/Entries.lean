import EL.Proofs.Assembly

/-!
# The entries of a map

A key of a map is one token, and neither a name nor a string goes on with a colon. So **a key can be
written in front of the text of any expression** (`ReadsEntry.exists_tokens`), and what is written
entry by entry is put entry by entry into the map (`readsAs_mapText`). Entries with different keys
are all kept; they are only put in order.
-/

set_option autoImplicit false

namespace EL

open Text (joinWith)

/-- The text is one token, which stands for this key. -/
def IsKey (text key : String) : Prop :=
  ∃ t after, (Cursor.ofText text).next = (.ok t, after) ∧ after.rest = [] ∧ t.key? = some key

/-- The text of a key and the text of an expression, with the entry they make up. -/
def ReadsEntry (texts : String × String) (kv : String × Expr) : Prop :=
  IsKey texts.1 kv.1 ∧ parseStrict texts.2 = .ok kv.2

def entryText (texts : String × String) : String := texts.1 ++ ": " ++ texts.2

/-- Entries of a map between its braces, each with the end of its line. -/
def mapText (entries : List (String × String)) : String :=
  "\x7b " ++ (joinWith "\n, " (entries.map entryText) ++ "\n \x7d")

/-! ## A colon behind a key -/

namespace Lexeme

/-- A string is read up to its quote, and a name as far as it goes. -/
theorem read_colon {c : Char} {r : List Char} {x : Lexeme} (h : read c r = .ok x)
    (hx : x.spelling = c :: r) (hk : x.kind = .name ∨ x.kind = .string) (cs : List Char) :
    read c (r ++ ':' :: cs) = .ok x := by
  obtain ⟨kind, spelling⟩ := x
  obtain rfl : spelling = c :: r := hx
  rcases hk with rfl | rfl
  · obtain ⟨d, s, hds, hd, hs, hkeyword⟩ := isName_of_read h rfl
    cases hds
    exact read_name hd hs hkeyword rfl
  · obtain ⟨hquote, content, hcontent, hspelling⟩ := string_of_read h rfl
    obtain rfl : r = content ++ [c] := (List.cons.inj hspelling).2
    obtain ⟨-, -, hbefore⟩ := exists_of_stringContent? hcontent
    rw [List.append_assoc]
    exact read_quoted hquote (hbefore (':' :: cs))

/-- Names and strings do not begin like a gap. -/
theorem gap_of_key {c : Char} {r : List Char} {x : Lexeme} (h : read c r = .ok x)
    (hk : x.kind = .name ∨ x.kind = .string) (r' : List Char) : gap (c :: r') = [] := by
  have hsymbols : ∀ s ∈ Kind.symbols, ¬ (s.1 = .name ∨ s.1 = .string) := by decide
  have hkeywords : ∀ s ∈ Kind.keywords, ¬ (s.1 = .name ∨ s.1 = .string) := by decide
  cases found_of_read h with
  | symbol hs => exact absurd hk (hsymbols _ hs)
  | keyword hs => exact absurd hk (hkeywords _ hs)
  | number => rcases hk with hk | hk <;> cases hk
  | string hquote => rcases hquote with rfl | rfl <;> rfl
  | name hc => exact gap_of_continuesName (continuesName_of_beginsName hc) r'

end Lexeme

/-- What begins with a name or a string begins with it in front of a colon too. -/
theorem BeginsWith.colon {text g : List Char} {x : Lexeme} (h : BeginsWith text g x [])
    (hk : x.kind = .name ∨ x.kind = .string) (cs : List Char) :
    BeginsWith (text ++ ':' :: cs) g x (':' :: cs) := by
  obtain ⟨hsplit, hgap, c, r, hcr, hread⟩ := h
  rw [List.append_nil] at hsplit hcr
  have hread' := Lexeme.read_colon hread hcr hk cs
  have hg : gapFrom false (g ++ c :: r) = g := by rwa [← hcr, ← hsplit]
  refine ⟨by simp [hsplit], ?_, c, r ++ ':' :: cs, by rw [hcr]; rfl, hread'⟩
  rw [hsplit, hcr, List.append_assoc]
  exact gapFrom_replace hg (Lexeme.gap_of_key hread hk _)

namespace Grammar

/-- Entries between the braces of a map are put into it one by one. -/
theorem derives_map {tss : List (List Token)} {kvs : List (String × Expr)}
    (h : List.Forall₂ (IsEntry .longest none 0) tss kvs) :
    Derives .longest none 0 (.expression (.map (Expr.entriesOfList kvs) .origin))
      (.symbol .openBrace :: (Token.join tss ++ [.symbol .closeBrace])) .endOfInput := by
  have hsimple : Derives .longest none 0 (.simple (.map (Expr.entriesOfList kvs) .origin))
      (.symbol .openBrace :: (Token.join tss ++ [.symbol .closeBrace])) .endOfInput := by
    by_cases hne : tss = []
    · subst hne
      cases h
      exact .emptyMap (o := .symbol .openBrace) (c := .symbol .closeBrace) rfl rfl
    · exact .map (o := .symbol .openBrace) rfl (derives_entries h hne [])
  exact .expression_of_simple hsimple (by decide) (show Kind.openBrace ≠ _ by decide)

end Grammar

section
variable {texts : String × String} {kv : String × Expr} {entries : List (String × String)}
  {kvs : List (String × Expr)}

/-- The token of a key stands in front of what follows a colon. -/
theorem IsKey.exists_token {text key : String} (h : IsKey text key) :
    ∃ t : Token, t.key? = some key ∧ ∀ {cs : List Char} {ts : List Token}, Shows cs ts →
      Shows (text.toList ++ ':' :: cs) (t :: .symbol .colon :: ts) := by
  obtain ⟨t, after, hn, hafter, hkey⟩ := h
  have hk := Grammar.kind_of_key? hkey
  have ht : t.kind ≠ .endOfInput := by rcases hk with hk | hk <;> rw [hk] <;> decide
  obtain ⟨g, x, hx, rfl, -⟩ := Cursor.exists_of_next hn ht
  rw [hafter] at hx
  refine ⟨x.token, hkey, fun hs => ?_⟩
  have hcolon := shows_symbol (s := [':']) (k := .colon) rfl rfl rfl hs
  exact shows_beginsWith (hx.colon hk _) hcolon

/-- The tokens of an entry, and what derives its value. -/
theorem ReadsEntry.exists_tokens (h : ReadsEntry texts kv) :
    ∃ ts, ShowsLine (entryText texts) ts ∧ Grammar.IsEntry .longest none 0 ts kv := by
  obtain ⟨hkey, hvalue⟩ := h
  obtain ⟨t, ht, hshows⟩ := hkey.exists_token
  obtain ⟨us, hscans, hd⟩ := parse_strict_iff_derives.mp hvalue
  refine ⟨t :: .symbol .colon :: us, fun cs ts hs => ?_, t, us, rfl, ht, ?_⟩
  · have hentry := hshows (shows_blank (c := ' ') rfl (shows_line hscans hs))
    simpa [entryText] using hentry
  · intro k hk
    have hfollows : Grammar.Follows k := by rcases hk with rfl | rfl <;> exact ⟨rfl, by decide⟩
    exact hd.within hfollows 1

theorem exists_tokens_of_entries (h : List.Forall₂ ReadsEntry entries kvs) :
    ∃ tss, List.Forall₂ ShowsLine (entries.map entryText) tss ∧
      List.Forall₂ (Grammar.IsEntry .longest none 0) tss kvs := by
  induction h with
  | nil => exact ⟨[], .nil, .nil⟩
  | cons hentry _ ih =>
    obtain ⟨ts, hshows, hts⟩ := hentry.exists_tokens
    obtain ⟨tss, htexts, htss⟩ := ih
    exact ⟨ts :: tss, .cons hshows htexts, .cons hts htss⟩

/-- The tokens of a map are those of its entries, with commas between them. -/
theorem shows_mapText {tss : List (List Token)}
    (h : List.Forall₂ ShowsLine (entries.map entryText) tss) :
    Shows (mapText entries).toList
      (.symbol .openBrace :: (Token.join tss ++ [.symbol .closeBrace])) := by
  have hclose : Shows [' ', '\x7d'] [.symbol .closeBrace] :=
    shows_blank rfl (shows_symbol (s := ['\x7d']) rfl rfl rfl shows_nil)
  have hopen := shows_symbol (s := ['\x7b']) (k := .openBrace) rfl rfl rfl
    (shows_blank (c := ' ') rfl (shows_join h hclose))
  simpa [mapText] using hopen

/-- **Entries that are written one by one are put one by one into the map.** -/
theorem readsAs_mapText (h : List.Forall₂ ReadsEntry entries kvs) :
    ReadsAs (mapText entries) (.map (Expr.entriesOfList kvs) .origin) := by
  obtain ⟨tss, htexts, htrees⟩ := exists_tokens_of_entries h
  exact exists_parse_of_shows (shows_mapText htexts) (Grammar.derives_map htrees)

end

end EL
