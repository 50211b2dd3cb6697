import EL.Expr.Source
import EL.Proofs.Nodes
import EL.Proofs.Number.Form
import EL.Proofs.Spelling
import Mathlib.Data.List.Forall2

/-!
# The tokens of a printed tree

`Expr.tokens` is what the source of a tree is read as, said of the tree and not of the text. **The
source spells these tokens** (`prints_source`): wherever two lexemes stand next to each other without
a space, the first cannot go on into the second.

That is a law of the printer's parts rather than of trees. `Prints` says of any text that it spells
its tokens in front of whatever can follow an operand, and each way of putting texts together keeps
it. The numbers and names of a tree are all that has to be known beforehand (`Printable`).
-/

set_option autoImplicit false

namespace EL

open Text (joinWith)

/-! ## Tokens of trees -/

/-- The token of a symbol. -/
def Token.symbol (k : Kind) : Token := ⟨k, String.ofList (k.spelling?.getD []), 0, .origin⟩

@[simp] theorem Token.kind_symbol (k : Kind) : (Token.symbol k).kind = k := rfl

/-- The tokens of a list, with commas between its items. -/
def Token.join : List (List Token) → List Token
  | [] => []
  | [ts] => ts
  | ts :: us :: r => ts ++ .symbol .comma :: join (us :: r)

/-- Tokens between brackets. -/
def Token.enclose (opening : Kind) (ts : List Token) (closing : Kind) : List Token :=
  .symbol opening :: (ts ++ [.symbol closing])

/-- The first token of a unary operator. -/
def UnaryOp.kind : UnaryOp → Kind
  | plus => .plus
  | minus => .minus
  | logicalNegation => .exclamation
  | bitwiseNegation => .tilde
  | group => .openParen
  | leftBoundedRange | rightBoundedRange => .range

/-- The token of a literal. -/
def Literal.token : Literal → Token
  | string s => ⟨.string, Text.escapeString s, 0, .origin⟩
  | number n => ⟨.number, String.ofList n.sourceText, 0, .origin⟩
  | boolean true => ⟨.boolean, "true", 0, .origin⟩
  | boolean false => ⟨.boolean, "false", 0, .origin⟩
  | null => ⟨.null, "null", 0, .origin⟩

namespace Expr

/-- The tokens of a unary operator with those of its operand. -/
def unaryTokens (op : UnaryOp) (ts : List Token) : List Token :=
  match op with
  | .group => Token.enclose .openParen ts .closeParen
  | .leftBoundedRange => ts ++ [.symbol .range]
  | op => .symbol op.kind :: ts

/-- The tokens between the brackets of a subscript with several indices, or with one array. -/
def indexListTokens (items : List (List Token)) : List Token :=
  match items with
  | [ts] => Token.enclose .openBracket ts .closeBracket
  | items => Token.join items

mutual

/-- What the source of a tree is read as. -/
def tokens : Expr → List Token
  | literal v _ => [v.token]
  | var x _ => [⟨.name, x, 0, .origin⟩]
  | unary op e _ => unaryTokens op e.tokens
  | binary op a b _ => a.tokens ++ .symbol op.kind :: b.tokens
  | array es _ => Token.enclose .openBracket (Token.join (listTokens es)) .closeBracket
  | map m _ => Token.enclose .openBrace (Token.join (entriesTokens m)) .closeBrace
  | switch es _ => Token.enclose .openSwitch (Token.join (listTokens es)) .closeSwitch
  | subscript a (array es _) _ =>
    a.tokens ++ Token.enclose .openBracket (indexListTokens (listTokens es)) .closeBracket
  | subscript a i _ => a.tokens ++ Token.enclose .openBracket i.tokens .closeBracket

/-- The tokens of the trees of a list. -/
def listTokens : List Expr → List (List Token)
  | [] => []
  | e :: es => e.tokens :: listTokens es

/-- The tokens of the entries of a map. -/
def entriesTokens : List (String × Expr) → List (List Token)
  | [] => []
  | (key, e) :: m =>
    (⟨.string, Text.escapeString key, 0, .origin⟩ :: .symbol .colon :: e.tokens) :: entriesTokens m

end

/-! An index is printed as such, and not as the array that it may be. -/

/-- What is printed between the brackets of a subscript. -/
def indexSource : Expr → String
  | array es _ => indexList (listSource es)
  | i => i.source

/-- What that is read as. -/
def indexTokens : Expr → List Token
  | array es _ => indexListTokens (listTokens es)
  | i => i.tokens

theorem source_subscript (a i : Expr) (l : Location) :
    (subscript a i l).source = a.source ++ ("[" ++ (i.indexSource ++ "]")) := by
  cases i <;> rfl

theorem tokens_subscript (a i : Expr) (l : Location) :
    (subscript a i l).tokens = a.tokens ++ Token.enclose .openBracket i.indexTokens .closeBracket := by
  cases i <;> rfl

/-! ## Places -/

section
variable (f : Location → Location)

mutual

/-- Neither what a tree is printed as nor what that is read as depends on places. -/
theorem printed_relocate : ∀ e : Expr,
    ((e.relocate f).source = e.source ∧ (e.relocate f).indexSource = e.indexSource) ∧
      (e.relocate f).tokens = e.tokens ∧ (e.relocate f).indexTokens = e.indexTokens
  | literal _ _ | var _ _ => ⟨⟨rfl, rfl⟩, rfl, rfl⟩
  | unary op e l => by
    obtain ⟨⟨hs, -⟩, ht, -⟩ := printed_relocate e
    have hsource : ((unary op e l).relocate f).source = (unary op e l).source := by
      rw [relocate, source, source, hs]
    have htokens : ((unary op e l).relocate f).tokens = (unary op e l).tokens := by
      rw [relocate, tokens, tokens, ht]
    exact ⟨⟨hsource, hsource⟩, htokens, htokens⟩
  | binary op a b l => by
    obtain ⟨⟨hsa, -⟩, hta, -⟩ := printed_relocate a
    obtain ⟨⟨hsb, -⟩, htb, -⟩ := printed_relocate b
    have hsource : ((binary op a b l).relocate f).source = (binary op a b l).source := by
      rw [relocate, source, source, hsa, hsb]
    have htokens : ((binary op a b l).relocate f).tokens = (binary op a b l).tokens := by
      rw [relocate, tokens, tokens, hta, htb]
    exact ⟨⟨hsource, hsource⟩, htokens, htokens⟩
  | array es _ => by
    obtain ⟨hs, ht⟩ := printedList_relocate es
    refine ⟨⟨?_, ?_⟩, ?_, ?_⟩ <;>
      simp only [relocate, source, indexSource, tokens, indexTokens, hs, ht]
  | switch es l => by
    obtain ⟨hs, ht⟩ := printedList_relocate es
    have hsource : ((switch es l).relocate f).source = (switch es l).source := by
      rw [relocate, source, source, hs]
    have htokens : ((switch es l).relocate f).tokens = (switch es l).tokens := by
      rw [relocate, tokens, tokens, ht]
    exact ⟨⟨hsource, hsource⟩, htokens, htokens⟩
  | map m l => by
    obtain ⟨hs, ht⟩ := printedEntries_relocate m
    have hsource : ((map m l).relocate f).source = (map m l).source := by
      rw [relocate, source, source, hs]
    have htokens : ((map m l).relocate f).tokens = (map m l).tokens := by
      rw [relocate, tokens, tokens, ht]
    exact ⟨⟨hsource, hsource⟩, htokens, htokens⟩
  | subscript a i l => by
    obtain ⟨⟨hsa, -⟩, hta, -⟩ := printed_relocate a
    obtain ⟨⟨-, hsi⟩, -, hti⟩ := printed_relocate i
    have hsource : ((subscript a i l).relocate f).source = (subscript a i l).source := by
      rw [relocate, source_subscript, source_subscript, hsa, hsi]
    have htokens : ((subscript a i l).relocate f).tokens = (subscript a i l).tokens := by
      rw [relocate, tokens_subscript, tokens_subscript, hta, hti]
    exact ⟨⟨hsource, hsource⟩, htokens, htokens⟩

theorem printedList_relocate : ∀ es : List Expr,
    listSource (relocateList f es) = listSource es ∧ listTokens (relocateList f es) = listTokens es
  | [] => ⟨rfl, rfl⟩
  | e :: es => by
    obtain ⟨⟨hs, -⟩, ht, -⟩ := printed_relocate e
    obtain ⟨hss, hts⟩ := printedList_relocate es
    simp only [relocateList, listSource, listTokens, hs, ht, hss, hts, and_self]

theorem printedEntries_relocate : ∀ m : List (String × Expr),
    entriesSource (relocateEntries f m) = entriesSource m ∧
      entriesTokens (relocateEntries f m) = entriesTokens m
  | [] => ⟨rfl, rfl⟩
  | (_, e) :: m => by
    obtain ⟨⟨hs, -⟩, ht, -⟩ := printed_relocate e
    obtain ⟨hss, hts⟩ := printedEntries_relocate m
    simp only [relocateEntries, entriesSource, entriesTokens, hs, ht, hss, hts, and_self]

end

theorem source_relocate (e : Expr) : (e.relocate f).source = e.source :=
  (printed_relocate f e).1.1

theorem tokens_relocate (e : Expr) : (e.relocate f).tokens = e.tokens :=
  (printed_relocate f e).2.1

end

/-- All binary operators but the range have spaces around them. -/
theorem binarySource_of_ne {op : BinaryOp} (hop : op ≠ .boundedRange) (left right : String) :
    binarySource op left right = left ++ (" " ++ (op.symbol ++ (" " ++ right))) := by
  cases op <;> first | rfl | exact absurd rfl hop

end Expr

/-! ## Texts that spell tokens -/

/-- A text spells these tokens in front of whatever can follow an operand. -/
def Spelled (text : String) (ts : List Token) : Prop :=
  ∀ cs us, Stops cs → Spells cs us → Spells (text.toList ++ cs) (ts ++ us)

/-- A text begins with a character that is no space, and with which no sign goes on. -/
def Leads (text : String) : Prop := ∃ c r, text.toList = c :: r ∧ c ≠ ' ' ∧ c ≠ '=' ∧ c ≠ '>'

theorem Leads.append {a : String} (h : Leads a) (b : String) : Leads (a ++ b) := by
  obtain ⟨c, r, hcs, hc⟩ := h
  exact ⟨c, r ++ b.toList, by rw [String.toList_append, hcs, List.cons_append], hc⟩

/-- A text leads, and spells these tokens. -/
structure Prints (text : String) (ts : List Token) : Prop where
  leads : Leads text
  spelled : Spelled text ts

namespace Prints

/-! ### Words and literals -/

theorem spells_word {c : Char} {r cs : List Char} {us : List Token} {k : Kind}
    (hc : Lexeme.continuesName c) (hread : Lexeme.read c (r ++ cs) = .ok ⟨k, c :: r⟩)
    (hk : k ≠ .string) (h : Spells cs us) :
    Spells (c :: r ++ cs) (⟨k, String.ofList (c :: r), 0, .origin⟩ :: us) := by
  have htoken : Lexeme.token ⟨k, c :: r⟩ = ⟨k, String.ofList (c :: r), 0, .origin⟩ := by
    rw [Lexeme.token, Lexeme.text, if_neg hk]
  rw [← htoken]
  exact .lexeme (Lexeme.gap_of_continuesName hc _) hread rfl h

theorem head_word {c : Char} (hc : Lexeme.continuesName c) : c ≠ ' ' ∧ c ≠ '=' ∧ c ≠ '>' := by
  refine ⟨?_, ?_, ?_⟩ <;> rintro rfl <;> exact absurd hc (by decide)

theorem number (m : Magnitude) :
    Prints (String.ofList m.sourceText) [⟨.number, String.ofList m.sourceText, 0, .origin⟩] := by
  have hnumeral := m.sourceText_reads.1
  obtain ⟨c, r, hcr, hdigit⟩ := hnumeral.exists_cons
  rw [hcr] at hnumeral ⊢
  have hc := Lexeme.continuesName_of_isDigit hdigit
  refine ⟨⟨c, r, String.toList_ofList, head_word hc⟩, fun cs us hcs h => ?_⟩
  rw [String.toList_ofList]
  have hread := Lexeme.read_number hnumeral.isNumber hcs.followsNumber
    fun hlast => hnumeral.getLast?_ne_point hlast.1
  exact spells_word hc hread nofun h

theorem name {x : String} (hx : Lexeme.IsName x.toList) : Prints x [⟨.name, x, 0, .origin⟩] := by
  obtain ⟨c, r, hcs, hc, hr, hk⟩ := hx
  rw [hcs] at hk
  have hc' := Lexeme.continuesName_of_beginsName hc
  refine ⟨⟨c, r, hcs, head_word hc'⟩, fun cs us hstops h => ?_⟩
  have hword := spells_word hc' (Lexeme.read_name hc hr hk hstops.endsName) nofun h
  rwa [← hcs, String.ofList_toList] at hword

/-- A word that is read as such whatever follows it. -/
theorem keyword {c : Char} {r : List Char} {k : Kind} (hc : Lexeme.continuesName c)
    (hread : ∀ cs, Lexeme.read c (r ++ cs) = .ok ⟨k, c :: r⟩) (hk : k ≠ .string) :
    Prints (String.ofList (c :: r)) [⟨k, String.ofList (c :: r), 0, .origin⟩] := by
  refine ⟨⟨c, r, String.toList_ofList, head_word hc⟩, fun cs us _ h => ?_⟩
  rw [String.toList_ofList]
  exact spells_word hc (hread cs) hk h

theorem spells_quoted (s : String) {cs : List Char} {us : List Token} (h : Spells cs us) :
    Spells ((Expr.quoted s).toList ++ cs) (⟨.string, Text.escapeString s, 0, .origin⟩ :: us) := by
  have htext : (Expr.quoted s).toList ++ cs = '"' :: (Text.escape s.toList ++ '"' :: cs) := by
    simp [Expr.quoted, Text.escapeString]
  have htoken : Lexeme.token ⟨.string, '"' :: Text.escape s.toList ++ ['"']⟩ =
      ⟨.string, Text.escapeString s, 0, .origin⟩ := by
    simp [Lexeme.token, Lexeme.text, Text.escapeString]
  rw [htext, ← htoken]
  exact .lexeme rfl (Lexeme.read_string s.toList cs) (by simp) h

theorem literal {v : Literal} (hv : ∀ n, v = .number n → ∃ m, n = .finite false m) :
    Prints (Expr.literalSource v) [v.token] := by
  cases v with
  | string s =>
    have hleads : Leads "\"" := ⟨'"', [], rfl, by decide⟩
    exact ⟨hleads.append _, fun cs us _ h => spells_quoted s h⟩
  | number n =>
    obtain ⟨m, rfl⟩ := hv n rfl
    exact number m
  | boolean b =>
    cases b with
    | true => exact keyword (c := 't') (r := ['r', 'u', 'e']) (by decide) (fun _ => rfl) nofun
    | false => exact keyword (c := 'f') (r := ['a', 'l', 's', 'e']) (by decide) (fun _ => rfl) nofun
  | null => exact keyword (c := 'n') (r := ['u', 'l', 'l']) (by decide) (fun _ => rfl) nofun

/-! ### Operators -/

theorem spells_symbol {k : Kind} {s r : List Char} {us : List Token} (hk : k.spelling? = some s)
    (hgap : gap (s ++ r) = []) (hsymbol : Lexeme.symbol? (s ++ r) = some ⟨k, s⟩)
    (h : Spells r us) : Spells (s ++ r) (.symbol k :: us) := by
  cases s with
  | nil => exact absurd rfl (Lexeme.symbol?_spelling_ne_nil hsymbol)
  | cons c s =>
    have htoken : Lexeme.token ⟨k, c :: s⟩ = .symbol k := by
      have hne : k ≠ .string := by rintro rfl; cases hk
      rw [Lexeme.token, Lexeme.text, if_neg hne, Token.symbol, hk]
      rfl
    have hread : Lexeme.read c (s ++ r) = .ok ⟨k, c :: s⟩ := by
      rw [List.cons_append] at hsymbol
      rw [Lexeme.read, hsymbol]
    rw [← htoken]
    exact .lexeme hgap hread rfl h

variable {text left right : String} {ts us : List Token}

/-- A symbol directly in front of a text, with which it does not go on. -/
theorem prefixed {k : Kind} {d : Char} {s : List Char} (hk : k.spelling? = some (d :: s))
    (hd : d ≠ ' ' ∧ d ≠ '=' ∧ d ≠ '>') (hgap : ∀ r, gap (d :: s ++ r) = [])
    (hsymbol : ∀ c r, c ≠ '=' → c ≠ '>' → Lexeme.symbol? (d :: s ++ c :: r) = some ⟨k, d :: s⟩)
    (h : Prints text ts) : Prints (String.ofList (d :: s) ++ text) (.symbol k :: ts) := by
  obtain ⟨⟨c, r, htext, -, heq, hgt⟩, hspelled⟩ := h
  have hleads : Leads (String.ofList (d :: s)) := ⟨d, s, String.toList_ofList, hd⟩
  refine ⟨hleads.append text, fun cs us hcs h => ?_⟩
  have hrest := hspelled cs us hcs h
  rw [String.toList_append, String.toList_ofList, List.append_assoc]
  refine spells_symbol hk (hgap _) ?_ hrest
  rw [htext]
  exact hsymbol c (r ++ cs) heq hgt

theorem group (h : Prints text ts) :
    Prints ("( " ++ (text ++ " )")) (Token.enclose .openParen ts .closeParen) := by
  have hleads : Leads "( " := ⟨'(', [' '], rfl, by decide⟩
  refine ⟨hleads.append _, fun cs us hcs hs => ?_⟩
  have hclose : Spells (')' :: cs) (.symbol .closeParen :: us) :=
    spells_symbol (s := [')']) rfl rfl rfl hs
  have hrest := h.spelled _ _ (.space _) (.space hclose)
  have hopen : Spells ('(' :: ' ' :: (text.toList ++ ' ' :: ')' :: cs))
      (.symbol .openParen :: (ts ++ .symbol .closeParen :: us)) :=
    spells_symbol (s := ['(']) rfl rfl rfl (.space hrest)
  simpa [Token.enclose] using hopen

theorem unary (op : UnaryOp) (h : Prints text ts) :
    Prints (Expr.unarySource op text) (Expr.unaryTokens op ts) := by
  cases op with
  | plus => exact prefixed (s := []) rfl (by decide) (fun _ => rfl) (fun _ _ _ _ => rfl) h
  | minus =>
    exact prefixed (s := []) rfl (by decide) (fun _ => rfl)
      (fun _ r _ hc => Lexeme.symbol?_minus hc r) h
  | logicalNegation =>
    exact prefixed (s := []) rfl (by decide) (fun _ => rfl)
      (fun _ r hc _ => Lexeme.symbol?_exclamation hc r) h
  | bitwiseNegation =>
    exact prefixed (s := []) rfl (by decide) (fun _ => rfl) (fun _ _ _ _ => rfl) h
  | group => exact group h
  | leftBoundedRange =>
    refine ⟨h.leads.append _, fun cs us hcs hs => ?_⟩
    have hdots : Spells ('.' :: '.' :: cs) (.symbol .range :: us) :=
      spells_symbol (s := ['.', '.']) rfl rfl rfl hs
    have hrest := h.spelled _ _ (.range _) hdots
    simpa [Expr.unarySource, Expr.unaryTokens] using hrest
  | rightBoundedRange =>
    exact prefixed (d := '.') (s := ['.']) rfl (by decide) (fun _ => rfl) (fun _ _ _ _ => rfl) h

theorem spells_operator (op : BinaryOp) {cs : List Char} (h : Spells cs us) :
    Spells (op.symbol.toList ++ ' ' :: cs) (.symbol op.kind :: us) := by
  rw [BinaryOp.symbol, String.toList_ofList]
  cases op <;> exact spells_symbol rfl rfl rfl (.space h)

theorem binary (op : BinaryOp) (ha : Prints left ts) (hb : Prints right us) :
    Prints (Expr.binarySource op left right) (ts ++ .symbol op.kind :: us) := by
  by_cases hop : op = .boundedRange
  · subst hop
    refine ⟨ha.leads.append _, fun cs vs hcs hs => ?_⟩
    have hdots : Spells ('.' :: '.' :: (right.toList ++ cs)) (.symbol .range :: (us ++ vs)) :=
      spells_symbol (s := ['.', '.']) rfl rfl rfl (hb.spelled cs vs hcs hs)
    have hrest := ha.spelled _ _ (.range _) hdots
    simpa [Expr.binarySource, BinaryOp.kind] using hrest
  · rw [Expr.binarySource_of_ne hop]
    refine ⟨ha.leads.append _, fun cs vs hcs hs => ?_⟩
    have hrest := ha.spelled _ _ (.space _) (.space (spells_operator op (hb.spelled cs vs hcs hs)))
    simpa using hrest

/-! ### Lists -/

theorem join {items : List String} {tss : List (List Token)} (h : List.Forall₂ Prints items tss) :
    Spelled (joinWith ", " items) (Token.join tss) := by
  induction h with
  | nil => exact fun cs us _ hs => hs
  | @cons a ts items tss ha h ih =>
    cases h with
    | nil => exact ha.spelled
    | cons hb h =>
      intro cs us hcs hs
      have hcomma := spells_symbol (s := [',']) rfl rfl rfl (.space (ih cs us hcs hs))
      have hrest := ha.spelled _ _ (.comma _) hcomma
      simpa [Token.join] using hrest

/-- Brackets that a list can be printed in. -/
structure Encloses (opening closing : String) (k k' : Kind) : Prop where
  leads : Leads opening
  opens : ∀ cs us, Spells cs us → Spells (opening.toList ++ ' ' :: cs) (.symbol k :: us)
  closes : Spelled closing [.symbol k']
  closesAtOnce : Spelled (opening ++ closing) [.symbol k, .symbol k']

theorem encloses_brackets : Encloses "[" "]" .openBracket .closeBracket where
  leads := ⟨'[', [], rfl, by decide⟩
  opens _ _ h := spells_symbol (s := ['[']) rfl rfl rfl (.space h)
  closes _ _ _ h := spells_symbol (s := [']']) rfl rfl rfl h
  closesAtOnce _ _ _ h :=
    spells_symbol (s := ['[']) rfl rfl rfl (spells_symbol (s := [']']) rfl rfl rfl h)

theorem spelled_closeBrace : Spelled "\x7d" [.symbol .closeBrace] := by
  intro cs us hcs h
  cases hcs <;> exact spells_symbol (s := ['}']) rfl rfl rfl h

theorem encloses_braces : Encloses "\x7b" "\x7d" .openBrace .closeBrace where
  leads := ⟨'{', [], rfl, by decide⟩
  opens _ _ h := spells_symbol (s := ['{']) rfl rfl rfl (.space h)
  closes := spelled_closeBrace
  closesAtOnce cs us hcs h :=
    spells_symbol (s := ['{']) rfl rfl rfl (spelled_closeBrace cs us hcs h)

theorem encloses_switch : Encloses "\x7b\x7b" "\x7d\x7d" .openSwitch .closeSwitch where
  leads := ⟨'{', ['{'], rfl, by decide⟩
  opens _ _ h := spells_symbol (s := ['{', '{']) rfl rfl rfl (.space h)
  closes _ _ _ h := spells_symbol (s := ['}', '}']) rfl rfl rfl h
  closesAtOnce _ _ _ h :=
    spells_symbol (s := ['{', '{']) rfl rfl rfl (spells_symbol (s := ['}', '}']) rfl rfl rfl h)

theorem bracketed {opening closing : String} {k k' : Kind} (hb : Encloses opening closing k k')
    {items : List String} {tss : List (List Token)} (h : List.Forall₂ Prints items tss) :
    Prints (Expr.bracketed opening items closing) (Token.enclose k (Token.join tss) k') := by
  have hjoin := join h
  cases h with
  | nil => exact ⟨hb.leads.append closing, hb.closesAtOnce⟩
  | cons ha h =>
    refine ⟨hb.leads.append _, fun cs us hcs hs => ?_⟩
    have hclose := hb.closes cs us hcs hs
    have hopen := hb.opens _ _ (hjoin _ _ (.space _) (.space hclose))
    simpa [Expr.bracketed, Token.enclose] using hopen

theorem indexList {items : List String} {tss : List (List Token)}
    (h : List.Forall₂ Prints items tss) :
    Spelled (Expr.indexList items) (Expr.indexListTokens tss) := by
  have hjoin := join h
  cases h with
  | nil => exact hjoin
  | cons ha h =>
    cases h with
    | nil => exact (bracketed encloses_brackets (.cons ha .nil)).spelled
    | cons hb h => exact hjoin

theorem subscript (ha : Prints left ts) (hi : Spelled right us) :
    Prints (left ++ ("[" ++ (right ++ "]")))
      (ts ++ Token.enclose .openBracket us .closeBracket) := by
  refine ⟨ha.leads.append _, fun cs vs hcs hs => ?_⟩
  have hclose := encloses_brackets.closes cs vs hcs hs
  have hopen := spells_symbol (s := ['[']) rfl rfl rfl (hi _ _ (.closeBracket _) hclose)
  have hrest := ha.spelled _ _ (.openBracket _) hopen
  simpa [Token.enclose] using hrest

theorem entry (key : String) (h : Prints text ts) :
    Prints (Expr.quoted key ++ (": " ++ text))
      (⟨.string, Text.escapeString key, 0, .origin⟩ :: .symbol .colon :: ts) := by
  have hleads : Leads "\"" := ⟨'"', [], rfl, by decide⟩
  refine ⟨(hleads.append _).append _, fun cs us hcs hs => ?_⟩
  have hcolon := spells_symbol (s := [':']) rfl rfl rfl (.space (h.spelled cs us hcs hs))
  have hkey := spells_quoted key hcolon
  simpa using hkey

end Prints

/-! ## Trees -/

/-- What has to be known of the numbers and names of a tree. -/
def Expr.Printable : Expr → Prop
  | literal (.number n) _ => ∃ m, n = .finite false m
  | var x _ => Lexeme.IsName x.toList
  | _ => True

mutual

theorem prints_forms : ∀ e : Expr, e.All Expr.Printable →
    Prints e.source e.tokens ∧ Spelled e.indexSource e.indexTokens
  | .literal v _, h => by
    have hv : ∀ n, v = .number n → ∃ m, n = .finite false m := by
      rintro n rfl
      exact h.root
    have hprints := Prints.literal hv
    exact ⟨hprints, hprints.spelled⟩
  | .var x _, h => by
    have hprints := Prints.name (x := x) h.root
    exact ⟨hprints, hprints.spelled⟩
  | .unary op e _, h => by
    have hprints := Prints.unary op (prints_forms e (Expr.all_unary.mp h).2).1
    exact ⟨hprints, hprints.spelled⟩
  | .binary op a b _, h => by
    obtain ⟨-, ha, hb⟩ := Expr.all_binary.mp h
    have hprints := Prints.binary op (prints_forms a ha).1 (prints_forms b hb).1
    exact ⟨hprints, hprints.spelled⟩
  | .array es _, h => by
    have hlist := prints_list es (Expr.all_array.mp h).2
    exact ⟨.bracketed Prints.encloses_brackets hlist, Prints.indexList hlist⟩
  | .map m _, h => by
    have hprints := Prints.bracketed Prints.encloses_braces (prints_entries m (Expr.all_map.mp h).2)
    exact ⟨hprints, hprints.spelled⟩
  | .switch es _, h => by
    have hprints := Prints.bracketed Prints.encloses_switch (prints_list es (Expr.all_switch.mp h).2)
    exact ⟨hprints, hprints.spelled⟩
  | .subscript a i l, h => by
    obtain ⟨-, ha, hi⟩ := Expr.all_subscript.mp h
    have hprints := Prints.subscript (prints_forms a ha).1 (prints_forms i hi).2
    rw [← Expr.source_subscript a i l, ← Expr.tokens_subscript a i l] at hprints
    exact ⟨hprints, hprints.spelled⟩

theorem prints_list : ∀ es : List Expr, (∀ e ∈ es, e.All Expr.Printable) →
    List.Forall₂ Prints (Expr.listSource es) (Expr.listTokens es)
  | [], _ => .nil
  | e :: es, h =>
    .cons (prints_forms e (h e List.mem_cons_self)).1
      (prints_list es fun x hx => h x (List.mem_cons_of_mem e hx))

theorem prints_entries : ∀ m : List (String × Expr), (∀ kv ∈ m, kv.2.All Expr.Printable) →
    List.Forall₂ Prints (Expr.entriesSource m) (Expr.entriesTokens m)
  | [], _ => .nil
  | (key, e) :: m, h =>
    .cons (.entry key (prints_forms e (h _ List.mem_cons_self)).1)
      (prints_entries m fun kv hkv => h kv (List.mem_cons_of_mem _ hkv))

end

/-- **The source of a tree spells its tokens.** -/
theorem prints_source {e : Expr} (h : e.All Expr.Printable) : Prints e.source e.tokens :=
  (prints_forms e h).1

theorem spells_source {e : Expr} (h : e.All Expr.Printable) : Spells e.source.toList e.tokens := by
  simpa using (prints_source h).spelled [] [] .nil .nil

end EL
