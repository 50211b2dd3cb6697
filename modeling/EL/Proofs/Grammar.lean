import EL.Number.Decimal
import EL.Parser.State
import EL.Text.Escape

/-!
# The grammar of EL

A grammar of token lists, written down without a parser in mind. `Derives` says that a phrase of
the language is spelled by some tokens, and a `Phrase` carries the tree that its tokens stand for,
so a derivation is a reading of the tokens as well. The rules are, with `binop` for the tokens
between two operands and braces for repetition:

```
expression := ( term ) tail  |  term
term       := operand tail
tail       := { binop operand }
operand    := simple subscripts  |  {{ [ branches ] }}
simple     := sign operand  |  ( term ) tail  |  atom  |  [ [ elements ] ]  |  { [ entries ] }
subscripts := { [ [ indices ] ] }
element    := expression [ .. expression ]
index      := element  |  expression ..  |  .. expression
entry      := key : expression
```

**These rules are ambiguous, in three places.** An expression in parentheses is an expression by
either rule; operators after the parentheses of an operand may belong to its tail or to the chain
around it; subscripts after a sign may belong to the operand of the sign or to the signed term. A
`Policy` says which of the choices are made. It decides by what comes next, so a derivation is
given the kind of the token that follows its own.

A derivation also keeps count of depth: `b` is the number of operands that a phrase stands in, and
no operand may stand deeper than `limit`.
-/

set_option autoImplicit false

namespace EL

open EL.Parser (Shape)

/-- The node of a token that is an operand by itself. The number that a literal stands for must be
    finite. -/
def Token.atom? (t : Token) : Option Expr :=
  match t.kind with
  | .name => some (.var t.text t.location)
  | .string => some (.literal (.string (Text.unescapeString t.text)) t.location)
  | .number =>
    match Number.ofLiteral? t.text.toList with
    | some (.finite s m) => some (.literal (.number (.finite s m)) t.location)
    | _ => none
  | .boolean => some (.literal (.boolean (t.text = "true")) t.location)
  | .null => some (.literal .null t.location)
  | _ => none

/-- The key that a token stands for in a map. -/
def Token.key? (t : Token) : Option String :=
  match t.kind with
  | .name => some t.text
  | .string => some (Text.unescapeString t.text)
  | _ => none

theorem BinaryOp.ofKind?_eq_none_iff {k : Kind} :
    ofKind? k = none ↔ k ∉ TokenSet.chaining := by
  cases k <;> decide

/-- The token that ends a list of this shape. -/
def Parser.Shape.closer : Shape → Kind
  | .array | .index _ => .closeBracket
  | .switch => .closeSwitch

theorem Parser.Shape.closer_eq (s : Shape) : s.closer = .closeBracket ∨ s.closer = .closeSwitch := by
  cases s with
  | array | index => exact .inl rfl
  | switch => exact .inr rfl

/-- The same kind of list. -/
def Parser.Shape.Like : Shape → Shape → Prop
  | .array, .array | .index _, .index _ | .switch, .switch => True
  | _, _ => False

theorem Parser.Shape.Like.closer {s s' : Shape} (h : s.Like s') : s'.closer = s.closer := by
  cases s <;> cases s' <;> first | rfl | cases h

theorem Parser.Shape.Like.index {x : Expr} {s' : Shape} (h : Shape.Like (.index x) s') :
    ∃ y, s' = .index y := by
  cases s' with
  | index y => exact ⟨y, rfl⟩
  | array | switch => cases h

theorem Parser.Shape.Like.switch {s s' : Shape} (h : s.Like s') (hs : s' = .switch) :
    s = .switch := by
  subst hs
  cases s <;> first | rfl | cases h

/-- The index node for the indices of a subscript that was opened at `loc`. -/
def Expr.collect (es : List Expr) (loc : Location) : Expr :=
  match es with
  | [e] => e
  | es => .array es loc

namespace Grammar

/-- What tokens can be read as. -/
inductive Phrase where
  | expression (e : Expr)
  | term (e : Expr)
  /-- Operators and operands that continue the chain `e` to the chain `e'`. -/
  | tail (e e' : Expr)
  | operand (e : Expr)
  | simple (e : Expr)
  /-- Subscripts that make `e'` of the simple term `e`. -/
  | subscripts (e e' : Expr)
  /-- What follows the opening bracket of a list, the closing one included. -/
  | listing (s : Shape) (es : List Expr)
  /-- Items of a list, of which there must be one, and the closing bracket. -/
  | items (s : Shape) (es : List Expr)
  | item (s : Shape) (e : Expr)
  /-- Entries of a map, of which there must be one, and the closing brace. They make the map `m'`
      of the map `m`. -/
  | entries (m m' : List (String × Expr))

/-- The kind of the first of these tokens, or `k` if there are none and `k` follows. -/
def ahead (ts : List Token) (k : Kind) : Kind :=
  match ts with
  | [] => k
  | t :: _ => t.kind

@[simp] theorem ahead_nil (k : Kind) : ahead [] k = k := rfl

@[simp] theorem ahead_cons (t : Token) (ts : List Token) (k : Kind) : ahead (t :: ts) k = t.kind :=
  rfl

/-- Is an operand of this depth allowed? -/
def Admits (limit : Option Nat) (depth : Nat) : Prop := ∀ n, limit = some n → depth ≤ n

/-- Which choices are made where the rules leave one. -/
structure Policy where
  /-- Can a term that is an expression begin with such a token? -/
  beginsTerm : Kind → Prop
  /-- Can the tail of an operand's parentheses be these tokens, if such a token follows? -/
  endsTail : List Token → Kind → Prop
  /-- Can the subscripts of an operand end before such a token? -/
  endsSubscripts : Kind → Prop
  /-- Can the upper bound of a range in a subscript begin with such a token? -/
  beginsUpper : Kind → Prop

section
variable (π : Policy) (limit : Option Nat)

/-- `Derives π limit b p ts k`: inside of `b` operands, and before a token of the kind `k`, the
    tokens `ts` can be read as `p`. -/
inductive Derives : Nat → Phrase → List Token → Kind → Prop where
  | grouped {b : Nat} {o c : Token} {ts us : List Token} {k : Kind} {e e' : Expr}
      (ho : o.kind = .openParen) (hc : c.kind = .closeParen)
      (ht : Derives b (.term e) ts .closeParen)
      (hu : Derives b (.tail (.unary .group e o.location) e') us k) :
      Derives b (.expression e') (o :: (ts ++ c :: us)) k
  | ungrouped {b : Nat} {ts : List Token} {k : Kind} {e : Expr}
      (hk : π.beginsTerm (ahead ts k)) (ht : Derives b (.term e) ts k) :
      Derives b (.expression e) ts k
  | chain {b : Nat} {ts us : List Token} {k : Kind} {e e' : Expr}
      (ho : Derives b (.operand e) ts (ahead us k)) (hu : Derives b (.tail e e') us k) :
      Derives b (.term e') (ts ++ us) k
  | tailEnd {b : Nat} {k : Kind} {e : Expr} : Derives b (.tail e e) [] k
  | tailMore {b : Nat} {t : Token} {ts us : List Token} {k : Kind} {op : BinaryOp} {e r e' : Expr}
      (ht : BinaryOp.ofKind? t.kind = some op) (hr : Derives b (.operand r) ts (ahead us k))
      (hu : Derives b (.tail (.binary op e r t.location) e') us k) :
      Derives b (.tail e e') (t :: (ts ++ us)) k
  | subscripted {b : Nat} {ts us : List Token} {k : Kind} {e e' : Expr}
      (hb : Admits limit (b + 1)) (hs : Derives b (.simple e) ts (ahead us k))
      (hu : Derives b (.subscripts e e') us k) (hk : π.endsSubscripts k) :
      Derives b (.operand e') (ts ++ us) k
  | switch {b : Nat} {o : Token} {ts : List Token} {k : Kind} {es : List Expr}
      (hb : Admits limit (b + 1)) (ho : o.kind = .openSwitch)
      (hs : Derives b (.listing .switch es) ts k) :
      Derives b (.operand (.switch es o.location)) (o :: ts) k
  | atom {b : Nat} {t : Token} {k : Kind} {e : Expr} (ht : t.atom? = some e) :
      Derives b (.simple e) [t] k
  | sign {b : Nat} {t : Token} {ts : List Token} {k : Kind} {op : UnaryOp} {e : Expr}
      (ht : UnaryOp.ofKind? t.kind = some op) (ho : Derives (b + 1) (.operand e) ts k) :
      Derives b (.simple (.unary op e t.location)) (t :: ts) k
  | parens {b : Nat} {o c : Token} {ts us : List Token} {k : Kind} {e e' : Expr}
      (ho : o.kind = .openParen) (hc : c.kind = .closeParen)
      (ht : Derives (b + 1) (.term e) ts .closeParen)
      (hu : Derives (b + 1) (.tail (.unary .group e o.location) e') us k)
      (hk : π.endsTail us k) :
      Derives b (.simple e') (o :: (ts ++ c :: us)) k
  | array {b : Nat} {o : Token} {ts : List Token} {k : Kind} {es : List Expr}
      (ho : o.kind = .openBracket) (hs : Derives b (.listing .array es) ts k) :
      Derives b (.simple (.array es o.location)) (o :: ts) k
  | emptyMap {b : Nat} {o c : Token} {k : Kind} (ho : o.kind = .openBrace)
      (hc : c.kind = .closeBrace) : Derives b (.simple (.map [] o.location)) [o, c] k
  | map {b : Nat} {o : Token} {ts : List Token} {k : Kind} {m : List (String × Expr)}
      (ho : o.kind = .openBrace) (hm : Derives b (.entries [] m) ts k) :
      Derives b (.simple (.map m o.location)) (o :: ts) k
  | subscriptsEnd {b : Nat} {k : Kind} {e : Expr} : Derives b (.subscripts e e) [] k
  | subscriptsMore {b : Nat} {o : Token} {ts us : List Token} {k : Kind} {e e' : Expr}
      {es : List Expr} (ho : o.kind = .openBracket)
      (hs : Derives b (.listing (.index e) es) ts (ahead us k))
      (hu : Derives b (.subscripts (.subscript e (.collect es o.location) o.location) e') us k) :
      Derives b (.subscripts e e') (o :: (ts ++ us)) k
  | noItems {b : Nat} {s : Shape} {c : Token} {k : Kind} (hc : c.kind = s.closer) :
      Derives b (.listing s []) [c] k
  | someItems {b : Nat} {s : Shape} {ts : List Token} {k : Kind} {es : List Expr}
      -- A switch whose first branch is a switch would have to begin with four braces.
      (hs : s = .switch → ahead ts k ∈ TokenSet.simpleTerm) (hi : Derives b (.items s es) ts k) :
      Derives b (.listing s es) ts k
  | lastItem {b : Nat} {s : Shape} {ts : List Token} {c : Token} {k : Kind} {e : Expr}
      (hi : Derives b (.item s e) ts s.closer) (hc : c.kind = s.closer) :
      Derives b (.items s [e]) (ts ++ [c]) k
  | moreItems {b : Nat} {s : Shape} {ts us : List Token} {c : Token} {k : Kind} {e : Expr}
      {es : List Expr} (hi : Derives b (.item s e) ts .comma) (hc : c.kind = .comma)
      (hs : Derives b (.items s es) us k) :
      Derives b (.items s (e :: es)) (ts ++ c :: us) k
  | bare {b : Nat} {s : Shape} {ts : List Token} {k : Kind} {e : Expr}
      (he : Derives (b + 1) (.expression e) ts k) : Derives b (.item s e) ts k
  | bounded {b : Nat} {ts us : List Token} {t : Token} {k : Kind} {lo hi : Expr}
      (hl : Derives (b + 1) (.expression lo) ts .range) (ht : t.kind = .range)
      (hh : Derives (b + 1) (.expression hi) us k) :
      Derives b (.item .array (.binary .boundedRange lo hi t.location)) (ts ++ t :: us) k
  | boundedIndex {b : Nat} {ts us : List Token} {t : Token} {k : Kind} {x lo hi : Expr}
      (hl : Derives (b + 1) (.expression lo) ts .range) (ht : t.kind = .range)
      (hk : π.beginsUpper (ahead us k)) (hh : Derives (b + 1) (.expression hi) us k) :
      Derives b (.item (.index x) (.binary .boundedRange lo hi t.location)) (ts ++ t :: us) k
  | leftBounded {b : Nat} {ts : List Token} {t : Token} {k : Kind} {x lo : Expr}
      (hl : Derives (b + 1) (.expression lo) ts .range) (ht : t.kind = .range) :
      Derives b (.item (.index x) (.unary .leftBoundedRange lo t.location)) (ts ++ [t]) k
  | rightBounded {b : Nat} {us : List Token} {t : Token} {k : Kind} {x hi : Expr}
      (ht : t.kind = .range) (hh : Derives (b + 1) (.expression hi) us k) :
      Derives b (.item (.index x) (.unary .rightBoundedRange hi t.location)) (t :: us) k
  | lastEntry {b : Nat} {t n c : Token} {ts : List Token} {k : Kind} {key : String} {e : Expr}
      {m : List (String × Expr)} (ht : t.key? = some key) (hn : n.kind = .colon)
      (he : Derives (b + 1) (.expression e) ts .closeBrace) (hc : c.kind = .closeBrace) :
      Derives b (.entries m (Expr.insertEntry key e m)) (t :: n :: (ts ++ [c])) k
  | moreEntries {b : Nat} {t n c : Token} {ts us : List Token} {k : Kind} {key : String} {e : Expr}
      {m m' : List (String × Expr)} (ht : t.key? = some key) (hn : n.kind = .colon)
      (he : Derives (b + 1) (.expression e) ts .comma) (hc : c.kind = .comma)
      (hm : Derives b (.entries (Expr.insertEntry key e m) m') us k) :
      Derives b (.entries m m') (t :: n :: (ts ++ c :: us)) k

end

/-! ## Policies -/

namespace Policy

/-- The choices of the parser. The tail of an operand's parentheses is as long as it can be, and so
    are the subscripts of an operand: the innermost phrase that can take a token takes it. -/
def longest : Policy where
  beginsTerm := (· ≠ .openParen)
  endsTail _ k := BinaryOp.ofKind? k = none
  endsSubscripts := (· ≠ .openBracket)
  beginsUpper := (· ∈ TokenSet.simpleTerm)

end Policy

/-! ## What a phrase begins with -/

/-- Can such a phrase begin with a token of this kind? -/
def Phrase.CanBegin : Phrase → Kind → Prop
  | .expression _, k | .term _, k | .operand _, k => k ∈ TokenSet.operand
  | .simple _, k => k ∈ TokenSet.simpleTerm
  | .item s _, k | .items s _, k => k ∈ TokenSet.operand ∨ k = .range ∧ s.closer = .closeBracket
  | .entries _ _, k => k = .name ∨ k = .string
  | .tail _ _, _ | .subscripts _ _, _ | .listing _ _, _ => True

/-- Do these tokens begin as the phrase can begin? Only a tail and subscripts may be empty. -/
def Phrase.Begins (p : Phrase) (ts : List Token) : Prop :=
  match p with
  | .tail _ _ | .subscripts _ _ => True
  | p => ∃ t us, ts = t :: us ∧ p.CanBegin t.kind

theorem mem_simpleTerm_of_atom? {t : Token} {e : Expr} (h : t.atom? = some e) :
    t.kind ∈ TokenSet.simpleTerm := by
  unfold Token.atom? at h
  split at h <;> simp_all [TokenSet.simpleTerm, TokenSet.literal]

theorem mem_simpleTerm_of_sign {k : Kind} {op : UnaryOp} (h : UnaryOp.ofKind? k = some op) :
    k ∈ TokenSet.simpleTerm := by
  unfold UnaryOp.ofKind? at h
  split at h <;> simp_all [TokenSet.simpleTerm, TokenSet.sign]

theorem mem_operand_of_simpleTerm {k : Kind} (h : k ∈ TokenSet.simpleTerm) :
    k ∈ TokenSet.operand :=
  TokenSet.mem_union.mpr (.inl h)

theorem ne_openBracket_of_ofKind? {k : Kind} {op : BinaryOp} (h : BinaryOp.ofKind? k = some op) :
    k ≠ .openBracket := by
  rintro rfl
  cases h

theorem kind_of_key? {t : Token} {key : String} (h : t.key? = some key) :
    t.kind = .name ∨ t.kind = .string := by
  unfold Token.key? at h
  split at h <;> simp_all

/-- **A phrase begins as it can.** Nothing but a tail and subscripts is ever empty. -/
theorem Derives.begins {π : Policy} {limit : Option Nat} {b : Nat} {p : Phrase} {ts : List Token}
    {k : Kind} (h : Derives π limit b p ts k) : p.Begins ts := by
  induction h with
  | grouped ho => exact ⟨_, _, rfl, mem_operand_of_simpleTerm (by rw [ho]; decide)⟩
  | ungrouped _ _ ih => exact ih
  | chain _ _ ih | subscripted _ _ _ _ ih =>
    obtain ⟨t, us, rfl, ht⟩ := ih
    first
      | exact ⟨t, _, rfl, ht⟩
      | exact ⟨t, _, rfl, mem_operand_of_simpleTerm ht⟩
  | switch _ ho =>
    exact ⟨_, _, rfl, show _ ∈ TokenSet.operand by rw [ho]; decide⟩
  | atom ht => exact ⟨_, _, rfl, mem_simpleTerm_of_atom? ht⟩
  | sign ht => exact ⟨_, _, rfl, mem_simpleTerm_of_sign ht⟩
  | parens ho | array ho | emptyMap ho | map ho =>
    exact ⟨_, _, rfl, show _ ∈ TokenSet.simpleTerm by rw [ho]; decide⟩
  | tailEnd | tailMore | subscriptsEnd | subscriptsMore => exact trivial
  | noItems => exact ⟨_, _, rfl, trivial⟩
  | someItems _ _ ih =>
    obtain ⟨t, us, rfl, -⟩ := ih
    exact ⟨t, us, rfl, trivial⟩
  | lastItem _ _ ih | moreItems _ _ _ ih | bounded _ _ _ ih | boundedIndex _ _ _ _ ih
  | leftBounded _ _ ih =>
    obtain ⟨t, us, rfl, ht⟩ := ih
    first
      | exact ⟨t, _, rfl, ht⟩
      | exact ⟨t, _, rfl, .inl ht⟩
  | bare _ ih =>
    obtain ⟨t, us, rfl, ht⟩ := ih
    exact ⟨t, us, rfl, .inl ht⟩
  | rightBounded ht => exact ⟨_, _, rfl, .inr ⟨ht, rfl⟩⟩
  | lastEntry ht | moreEntries ht => exact ⟨_, _, rfl, kind_of_key? ht⟩

end Grammar

end EL
