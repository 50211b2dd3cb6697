import EL.Proofs.Acceptance
import EL.Proofs.Grammar

/-!
# The parser reads what the grammar derives

A derivation tells the parser what to do, phrase by phrase. What it makes of a phrase is stated
with what follows in view: **reading a phrase and then the rest is no worse than reading the rest
alone from the state after the phrase** (`Derives.runs`). That state is known for every phrase, and
the tree is in it.

"No worse" is a relation between what is made of tokens, and it depends on the policy of the
derivation. A policy that leaves a choice open leads to states that the parser does not take, and
then something has to be known about the states it takes in their place. `Respects` collects what
that is, one law for each of the choices.
-/

set_option autoImplicit false

namespace EL

open EL.Parser

namespace Parser

/-- The parser after an operand of this chain. Signs in front of an operand make a simple term of
    it, and only without them is it complete. -/
def Chain.resume (c : Chain) (e : Expr) (σ : List Frame) : State :=
  match c.signs with
  | [] => ⟨.afterOperand (c.complete e), .fresh c.base, σ⟩
  | (op, loc) :: signs => ⟨.afterSimple (.unary op e loc), { c with signs }, σ⟩

@[simp] theorem Chain.depth_fresh (b : Nat) : (Chain.fresh b).depth = b + 1 := rfl

@[simp] theorem Chain.resume_fresh (b : Nat) (e : Expr) (σ : List Frame) :
    (Chain.fresh b).resume e σ = ⟨.afterOperand e, .fresh b, σ⟩ := rfl

theorem closeList_switch (loc : Location) (done : List Expr) (c : Chain) (σ : List Frame) :
    closeList ⟨.switch, loc, done⟩ c σ = c.resume (.switch done.reverse loc) σ := rfl

/-- Before a token that opens no subscript, an operand has ended where its simple term has. -/
theorem step_resume {limit : Option Nat} {t : Token} (ht : t.kind ≠ .openBracket) (c : Chain)
    (e : Expr) (σ : List Frame) :
    step limit (c.resume e σ) t = step limit ⟨.afterSimple e, c, σ⟩ t := by
  obtain ⟨left, signs, base⟩ := c
  cases signs with
  | nil => simp [Chain.resume, step, afterSimple, ht]
  | cons s signs => simp [Chain.resume, step, afterSimple, ht, Chain.complete, Chain.applySigns]

/-- Before a token that is no operator, what follows parentheses has ended where the simple term
    has that the parentheses began. -/
theorem step_closedGroup {limit : Option Nat} {t : Token} (ht : BinaryOp.ofKind? t.kind = none)
    (c : Chain) (e : Expr) (b : Nat) (σ : List Frame) :
    step limit ⟨.afterOperand e, .fresh b, ⟨.closedGroup, c⟩ :: σ⟩ t =
      step limit ⟨.afterSimple e, c, σ⟩ t := by
  simp [step, afterOperand, afterSimple, ht, leave]

/-! ## What single tokens do -/

section
variable {limit : Option Nat} {t : Token} {c : Chain} {σ : List Frame}

theorem step_operand (hb : Grammar.Admits limit c.depth) {out : Outcome}
    (h : beginOperand? c σ t = some out) : step limit ⟨.operand, c, σ⟩ t = out := by
  simp only [step, beginOperand, h]
  cases limit with
  | none => rfl
  | some n => exact if_neg (Nat.not_lt.mpr (hb n rfl))

theorem step_expression (ht : t.kind ≠ .openParen) :
    step limit ⟨.expression, c, σ⟩ t = step limit ⟨.operand, c, σ⟩ t := by
  simp [step, beginExpression, ht]

theorem beginOperand?_eq_none_iff : beginOperand? c σ t = none ↔ t.kind ∉ TokenSet.operand := by
  unfold beginOperand?
  cases t.kind with
  | number =>
    refine iff_of_false ?_ fun hn => hn (by decide)
    dsimp only
    split <;> nofun
  | _ =>
    first
      | exact iff_of_true rfl (by decide)
      | exact iff_of_false nofun fun hn => hn (by decide)

theorem beginOperand?_atom {e : Expr} (h : t.atom? = some e) :
    beginOperand? c σ t = some (.shift ⟨.afterSimple e, c, σ⟩) := by
  unfold Token.atom? at h
  split at h <;> simp_all [beginOperand?, literal]
  split at h <;> simp_all

theorem beginOperand?_sign {op : UnaryOp} (h : UnaryOp.ofKind? t.kind = some op) :
    beginOperand? c σ t =
      some (.shift ⟨.operand, { c with signs := (op, t.location) :: c.signs }, σ⟩) := by
  unfold beginOperand?
  split <;> simp_all [UnaryOp.ofKind?]

theorem step_binop {op : BinaryOp} {e : Expr} (h : BinaryOp.ofKind? t.kind = some op) :
    step limit ⟨.afterOperand e, c, σ⟩ t =
      .shift ⟨.operand, { c with left := some (e, op, t.location) }, σ⟩ := by
  simp [step, afterOperand, h]

theorem step_leave {e : Expr} (h : BinaryOp.ofKind? t.kind = none) :
    step limit ⟨.afterOperand e, c, σ⟩ t = leave t e σ := by
  simp [step, afterOperand, h]

theorem step_openIndex {e : Expr} (h : t.kind = .openBracket) :
    step limit ⟨.afterSimple e, c, σ⟩ t =
      .shift ⟨.firstItem ⟨.index e, t.location, []⟩, c, σ⟩ := by
  simp [step, afterSimple, h, openIndex]

theorem step_closeParen {e : Expr} {loc : Location} {asOperand : Bool} {d : Chain}
    (h : t.kind = .closeParen) :
    step limit ⟨.afterOperand e, d, ⟨.group loc asOperand, c⟩ :: σ⟩ t =
      .shift (closeGroup loc asOperand e c σ) := by
  rw [step_leave (by rw [h]; decide), leave, if_pos h]

/-! ### In lists -/

theorem step_firstItem_closer {s : Shape} {loc : Location} (ht : t.kind = s.closer) :
    step limit ⟨.firstItem ⟨s, loc, []⟩, c, σ⟩ t = .shift (closeList ⟨s, loc, []⟩ c σ) := by
  have h : t.kind = Listing.closer ⟨s, loc, []⟩ := by rw [ht]; rfl
  simp [step, h]

theorem step_firstItem {s : Shape} {loc : Location} (ht : t.kind ≠ s.closer)
    (hs : s = .switch → t.kind ∈ TokenSet.simpleTerm) :
    step limit ⟨.firstItem ⟨s, loc, []⟩, c, σ⟩ t = step limit ⟨.item ⟨s, loc, []⟩, c, σ⟩ t := by
  have h : t.kind ≠ Listing.closer ⟨s, loc, []⟩ := by cases s <;> exact ht
  simp only [step, if_neg h]
  cases s with
  | array | index => rfl
  | switch => exact if_pos (hs rfl)

theorem step_item {l : Listing} (ht : t.kind ≠ .range) :
    step limit ⟨.item l, c, σ⟩ t =
      step limit ⟨.expression, .fresh c.depth, ⟨.item l .absent, c⟩ :: σ⟩ t := by
  simp only [step, beginItem]
  split
  · rename_i h _
    exact absurd h ht
  · rfl

theorem step_item_range {x : Expr} {loc : Location} {done : List Expr} (ht : t.kind = .range) :
    step limit ⟨.item ⟨.index x, loc, done⟩, c, σ⟩ t =
      .shift ⟨.expression, .fresh c.depth, ⟨.item ⟨.index x, loc, done⟩ (.dots t.location), c⟩ :: σ⟩ := by
  simp [step, beginItem, ht]

theorem kind_endsItem {k : Kind} {s : Shape} (h : k = .comma ∨ k = s.closer) :
    k = .comma ∨ k = .closeBracket ∨ k = .closeSwitch := by
  rcases h with rfl | rfl
  · exact .inl rfl
  · exact .inr s.closer_eq

/-- Where the dots of a range cannot follow, an item ends. -/
theorem endItem_eq_separate {l : Listing} {bound : Bound} {e : Expr}
    (h : ¬ (t.kind = .range ∧ bound = .absent)) :
    endItem l bound e c σ t = separate (l.add (bound.complete e)) c σ t := by
  unfold endItem
  split
  · exact absurd ⟨‹t.kind = .range›, rfl⟩ h
  · exact absurd ⟨‹t.kind = .range›, rfl⟩ h
  · rfl

/-- Before a token that ends an item, the item is complete. -/
theorem step_endItem {l : Listing} {bound : Bound} {e : Expr} {d : Chain}
    (ht : t.kind = .comma ∨ t.kind = l.shape.closer) :
    step limit ⟨.afterOperand e, d, ⟨.item l bound, c⟩ :: σ⟩ t =
      separate (l.add (bound.complete e)) c σ t := by
  have hk := kind_endsItem ht
  have hr : t.kind ≠ .range := by rcases hk with h | h | h <;> rw [h] <;> decide
  have hop : BinaryOp.ofKind? t.kind = none := by rcases hk with h | h | h <;> rw [h] <;> decide
  rw [step_leave hop, leave, endItem_eq_separate fun h => hr h.1]

/-- A bare item is complete as it is. -/
theorem step_endBare {l : Listing} {e : Expr} {d : Chain}
    (ht : t.kind = .comma ∨ t.kind = l.shape.closer) :
    step limit ⟨.afterOperand e, d, ⟨.item l .absent, c⟩ :: σ⟩ t = separate (l.add e) c σ t :=
  step_endItem ht

theorem step_upperBound {l : Listing} {e : Expr} {loc : Location}
    (ht : t.kind = .comma ∨ t.kind = l.shape.closer) :
    step limit ⟨.upperBound l e loc, c, σ⟩ t =
      separate (l.add (.unary .leftBoundedRange e loc)) c σ t := by
  have hs : ¬ t.kind ∈ TokenSet.simpleTerm := by
    rcases kind_endsItem ht with h | h | h <;> rw [h] <;> decide
  simp [step, hs]

/-- After the dots of a range in a subscript, one token tells if there is an upper bound. -/
theorem step_upperBound_begins {l : Listing} {e : Expr} {loc : Location}
    (ht : t.kind ∈ TokenSet.simpleTerm) :
    step limit ⟨.upperBound l e loc, c, σ⟩ t =
      step limit ⟨.expression, .fresh c.depth, ⟨.item l (.lower e loc), c⟩ :: σ⟩ t := by
  simp [step, ht]

theorem separate_comma {l : Listing} (ht : t.kind = .comma) :
    separate l c σ t = .shift ⟨.item l, c, σ⟩ := if_pos ht

theorem separate_closer {l : Listing} (ht : t.kind = l.shape.closer) :
    separate l c σ t = .shift (closeList l c σ) := by
  have h : t.kind = l.closer := by rw [ht]; rfl
  have hc : t.kind ≠ .comma := by
    rcases l.shape.closer_eq with h | h <;> rw [ht, h] <;> decide
  rw [separate, if_neg hc, if_pos h]

theorem step_range_array {e : Expr} {d : Chain} {loc : Location} {done : List Expr}
    (ht : t.kind = .range) :
    step limit ⟨.afterOperand e, d, ⟨.item ⟨.array, loc, done⟩ .absent, c⟩ :: σ⟩ t =
      .shift ⟨.expression, .fresh c.depth,
        ⟨.item ⟨.array, loc, done⟩ (.lower e t.location), c⟩ :: σ⟩ := by
  rw [step_leave (by rw [ht]; decide), leave]
  unfold endItem
  rw [ht]

theorem step_range_index {e x : Expr} {d : Chain} {loc : Location} {done : List Expr}
    (ht : t.kind = .range) :
    step limit ⟨.afterOperand e, d, ⟨.item ⟨.index x, loc, done⟩ .absent, c⟩ :: σ⟩ t =
      .shift ⟨.upperBound ⟨.index x, loc, done⟩ e t.location, c, σ⟩ := by
  rw [step_leave (by rw [ht]; decide), leave]
  unfold endItem
  rw [ht]

/-! ### In maps -/

theorem readKey_key {m : Entries} {key : String} (h : t.key? = some key) :
    readKey m c σ t = .shift ⟨.colon m key, c, σ⟩ := by
  unfold Token.key? at h
  split at h <;> simp_all [readKey]

theorem readKey_refuse {m : Entries} (hname : t.kind ≠ .name)
    (hstring : t.kind ≠ .string) : readKey m c σ t = need {.name, .string} t true := by
  unfold readKey
  split
  · exact absurd ‹_› hname
  · exact absurd ‹_› hstring
  · rfl

theorem endValue_refuse {m : Entries} {key : String} {e : Expr} (hcomma : t.kind ≠ .comma)
    (hcloser : t.kind ≠ .closeBrace) : endValue m key e c σ t = need {.comma, .closeBrace} t true := by
  unfold endValue
  dsimp only
  split
  · exact absurd ‹_› hcomma
  · exact absurd ‹_› hcloser
  · rfl

theorem step_colon {m : Entries} {key : String} (ht : t.kind = .colon) :
    step limit ⟨.colon m key, c, σ⟩ t =
      .shift ⟨.expression, .fresh c.depth, ⟨.value m key, c⟩ :: σ⟩ := by
  simp [step, ht]

theorem step_value_comma {m : Entries} {key : String} {e : Expr} {d : Chain}
    (ht : t.kind = .comma) :
    step limit ⟨.afterOperand e, d, ⟨.value m key, c⟩ :: σ⟩ t =
      .shift ⟨.key ⟨m.loc, Expr.insertEntry key e m.done⟩, c, σ⟩ := by
  rw [step_leave (by rw [ht]; decide), leave, endValue, ht]

theorem step_value_closeBrace {m : Entries} {key : String} {e : Expr} {d : Chain}
    (ht : t.kind = .closeBrace) :
    step limit ⟨.afterOperand e, d, ⟨.value m key, c⟩ :: σ⟩ t =
      .shift ⟨.afterSimple (.map (Expr.insertEntry key e m.done) m.loc), c, σ⟩ := by
  rw [step_leave (by rw [ht]; decide), leave, endValue, ht]

end

end Parser

namespace Grammar

/-- What a parser makes of tokens. -/
abbrev Reading := Option Expr

/-- Reading a phrase, and then what follows, is no worse than reading what follows from the state
    after the phrase: `R` relates the second to the first. -/
def Runs (R : Reading → Reading → Prop) (limit : Option Nat) (b : Nat) (p : Phrase)
    (ts : List Token) (k : Kind) : Prop :=
  match p with
  | .expression e => ∀ σ t rest, t.kind = k →
    R (read? limit ⟨.afterOperand e, .fresh b, σ⟩ (t :: rest))
      (read? limit ⟨.expression, .fresh b, σ⟩ (ts ++ t :: rest))
  | .term e => ∀ σ t rest, t.kind = k →
    R (read? limit ⟨.afterOperand e, .fresh b, σ⟩ (t :: rest))
      (read? limit ⟨.operand, .fresh b, σ⟩ (ts ++ t :: rest))
  | .tail e e' => ∀ σ t rest, t.kind = k →
    R (read? limit ⟨.afterOperand e', .fresh b, σ⟩ (t :: rest))
      (read? limit ⟨.afterOperand e, .fresh b, σ⟩ (ts ++ t :: rest))
  | .operand e => ∀ c σ t rest, c.depth = b + 1 → t.kind = k →
    R (read? limit (c.resume e σ) (t :: rest)) (read? limit ⟨.operand, c, σ⟩ (ts ++ t :: rest))
  | .simple e => ∀ c σ t rest, c.depth = b + 1 → Admits limit (b + 1) → t.kind = k →
    R (read? limit ⟨.afterSimple e, c, σ⟩ (t :: rest))
      (read? limit ⟨.operand, c, σ⟩ (ts ++ t :: rest))
  | .subscripts e e' => ∀ c σ t rest, c.depth = b + 1 → t.kind = k →
    R (read? limit ⟨.afterSimple e', c, σ⟩ (t :: rest))
      (read? limit ⟨.afterSimple e, c, σ⟩ (ts ++ t :: rest))
  | .listing s es => ∀ loc c σ t rest, c.depth = b + 1 → t.kind = k →
    R (read? limit (closeList ⟨s, loc, es.reverse⟩ c σ) (t :: rest))
      (read? limit ⟨.firstItem ⟨s, loc, []⟩, c, σ⟩ (ts ++ t :: rest))
  | .items s es => ∀ loc done c σ t rest, c.depth = b + 1 → t.kind = k →
    R (read? limit (closeList ⟨s, loc, es.reverse ++ done⟩ c σ) (t :: rest))
      (read? limit ⟨.item ⟨s, loc, done⟩, c, σ⟩ (ts ++ t :: rest))
  | .item s e => ∀ loc done c σ t rest, c.depth = b + 1 → t.kind = k → k = .comma ∨ k = s.closer →
    R (read? limit ⟨.afterOperand e, .fresh (b + 1), ⟨.item ⟨s, loc, done⟩ .absent, c⟩ :: σ⟩
        (t :: rest))
      (read? limit ⟨.item ⟨s, loc, done⟩, c, σ⟩ (ts ++ t :: rest))
  | .entries m m' => ∀ loc c σ t rest, c.depth = b + 1 → t.kind = k →
    R (read? limit ⟨.afterSimple (.map m' loc), c, σ⟩ (t :: rest))
      (read? limit ⟨.key ⟨loc, m⟩, c, σ⟩ (ts ++ t :: rest))

/-- What has to hold so that readings of derivations by this policy are related: that the parser
    does no worse where it chooses otherwise. -/
structure Respects (π : Policy) (limit : Option Nat) (R : Reading → Reading → Prop) : Prop where
  refl : ∀ x, R x x
  trans : ∀ {x y z}, R x y → R y z → R x z
  beginsTerm : ∀ {k}, π.beginsTerm k → k ≠ .openParen
  /-- The parser is still in the tail of parentheses where the policy has left it. -/
  tail : ∀ {us t}, π.endsTail us t.kind → ∀ c e σ rest,
    R (read? limit ⟨.afterSimple e, c, σ⟩ (t :: rest))
      (read? limit ⟨.afterOperand e, .fresh c.depth, ⟨.closedGroup, c⟩ :: σ⟩ (t :: rest))
  /-- The parser is still behind a simple term where the operand has ended. -/
  subscripts : ∀ {t}, π.endsSubscripts t.kind → ∀ c e σ rest,
    R (read? limit (c.resume e σ) (t :: rest)) (read? limit ⟨.afterSimple e, c, σ⟩ (t :: rest))
  /-- The parser looks at a token before it takes it to begin an upper bound. -/
  upper : ∀ {t}, π.beginsUpper t.kind → t.kind ∈ TokenSet.operand → ∀ l lo loc c σ rest,
    R (read? limit ⟨.expression, .fresh c.depth, ⟨.item l (.lower lo loc), c⟩ :: σ⟩ (t :: rest))
      (read? limit ⟨.upperBound l lo loc, c, σ⟩ (t :: rest))

/-- The first of some tokens and those after it. -/
theorem exists_ahead (us : List Token) (t : Token) (rest : List Token) :
    ∃ u vs, us ++ t :: rest = u :: vs ∧ u.kind = ahead us t.kind := by
  cases us with
  | nil => exact ⟨t, rest, rfl, rfl⟩
  | cons u us => exact ⟨u, us ++ t :: rest, rfl, rfl⟩

namespace Runs

variable {π : Policy} {limit : Option Nat} {R : Reading → Reading → Prop} {b : Nat}
  {o c n : Token} {ts us : List Token} {k : Kind} {e e' lo hi x : Expr} {s : Shape}
  {es : List Expr} {m m' : List (String × Expr)} {key : String}

theorem grouped (h : Respects π limit R) (ho : o.kind = .openParen) (hc : c.kind = .closeParen)
    (ht : Runs R limit b (.term e) ts .closeParen)
    (hu : Runs R limit b (.tail (.unary .group e o.location) e') us k) :
    Runs R limit b (.expression e') (o :: (ts ++ c :: us)) k := by
  intro σ t rest hk
  have hopen : step limit ⟨.expression, .fresh b, σ⟩ o =
      .shift ⟨.operand, .fresh b, ⟨.group o.location false, .fresh b⟩ :: σ⟩ := by
    simp [step, beginExpression, ho, Chain.fresh]
  have hterm := ht (⟨.group o.location false, .fresh b⟩ :: σ) c (us ++ t :: rest) hc
  rw [read?_shift (step_closeParen hc)] at hterm
  simp only [List.cons_append, List.append_assoc]
  rw [read?_shift hopen]
  exact h.trans (hu σ t rest hk) hterm

theorem ungrouped (h : Respects π limit R) (hb : (Phrase.term e).Begins ts)
    (hk : π.beginsTerm (ahead ts k)) (ht : Runs R limit b (.term e) ts k) :
    Runs R limit b (.expression e) ts k := by
  intro σ t rest htk
  obtain ⟨u, us, rfl, -⟩ := hb
  have hterm := ht σ t rest htk
  rwa [List.cons_append, read?_congr (step_expression (h.beginsTerm hk)).symm] at hterm

theorem chain (h : Respects π limit R) (ho : Runs R limit b (.operand e) ts (ahead us k))
    (hu : Runs R limit b (.tail e e') us k) : Runs R limit b (.term e') (ts ++ us) k := by
  intro σ t rest hk
  obtain ⟨u, vs, huv, hku⟩ := exists_ahead us t rest
  have hop := ho (.fresh b) σ u vs rfl (by rw [hku, hk])
  rw [Chain.resume_fresh, ← huv] at hop
  rw [List.append_assoc]
  exact h.trans (hu σ t rest hk) hop

theorem tailMore {op : BinaryOp} {r : Expr} (h : Respects π limit R)
    (hn : BinaryOp.ofKind? n.kind = some op) (hr : Runs R limit b (.operand r) ts (ahead us k))
    (hu : Runs R limit b (.tail (.binary op e r n.location) e') us k) :
    Runs R limit b (.tail e e') (n :: (ts ++ us)) k := by
  intro σ t rest hk
  obtain ⟨u, vs, huv, hku⟩ := exists_ahead us t rest
  have hop := hr ⟨some (e, op, n.location), [], b⟩ σ u vs rfl (by rw [hku, hk])
  rw [← huv] at hop
  rw [List.cons_append, List.append_assoc, read?_shift (step_binop hn)]
  exact h.trans (hu σ t rest hk) hop

theorem subscripted (h : Respects π limit R) (hb : Admits limit (b + 1))
    (hs : Runs R limit b (.simple e) ts (ahead us k))
    (hu : Runs R limit b (.subscripts e e') us k) (hk : π.endsSubscripts k) :
    Runs R limit b (.operand e') (ts ++ us) k := by
  intro d σ t rest hd htk
  obtain ⟨u, vs, huv, hku⟩ := exists_ahead us t rest
  have hsimple := hs d σ u vs hd hb (by rw [hku, htk])
  rw [← huv] at hsimple
  rw [List.append_assoc]
  exact h.trans (h.subscripts (htk ▸ hk) d e' σ rest) (h.trans (hu d σ t rest hd htk) hsimple)

theorem switch (hb : Admits limit (b + 1)) (ho : o.kind = .openSwitch)
    (hs : Runs R limit b (.listing .switch es) ts k) :
    Runs R limit b (.operand (.switch es o.location)) (o :: ts) k := by
  intro d σ t rest hd hk
  have hopen : step limit ⟨.operand, d, σ⟩ o =
      .shift ⟨.firstItem ⟨.switch, o.location, []⟩, d, σ⟩ :=
    step_operand (hd ▸ hb) (by simp [beginOperand?, ho])
  have hlist := hs o.location d σ t rest hd hk
  rw [closeList_switch, List.reverse_reverse] at hlist
  rwa [List.cons_append, read?_shift hopen]

theorem atom (h : Respects π limit R) (hn : n.atom? = some e) :
    Runs R limit b (.simple e) [n] k := by
  intro d σ t rest hd hb hk
  rw [List.singleton_append, read?_shift (step_operand (hd ▸ hb) (beginOperand?_atom hn))]
  exact h.refl _

theorem sign {op : UnaryOp} (hn : UnaryOp.ofKind? n.kind = some op)
    (ho : Runs R limit (b + 1) (.operand e) ts k) :
    Runs R limit b (.simple (.unary op e n.location)) (n :: ts) k := by
  intro d σ t rest hd hb hk
  rw [List.cons_append, read?_shift (step_operand (hd ▸ hb) (beginOperand?_sign hn))]
  have hdepth : Chain.depth { d with signs := (op, n.location) :: d.signs } = b + 1 + 1 := by
    simp only [Chain.depth, List.length_cons] at hd ⊢
    omega
  exact ho { d with signs := (op, n.location) :: d.signs } σ t rest hdepth hk

theorem parens (h : Respects π limit R) (ho : o.kind = .openParen) (hc : c.kind = .closeParen)
    (ht : Runs R limit (b + 1) (.term e) ts .closeParen)
    (hu : Runs R limit (b + 1) (.tail (.unary .group e o.location) e') us k)
    (hk : π.endsTail us k) : Runs R limit b (.simple e') (o :: (ts ++ c :: us)) k := by
  intro d σ t rest hd hb htk
  have hopen : step limit ⟨.operand, d, σ⟩ o =
      .shift ⟨.operand, .fresh (b + 1), ⟨.group o.location true, d⟩ :: σ⟩ :=
    step_operand (hd ▸ hb) (by simp [beginOperand?, ho, hd])
  have hterm := ht (⟨.group o.location true, d⟩ :: σ) c (us ++ t :: rest) hc
  rw [read?_shift (step_closeParen hc)] at hterm
  have htail := hu (⟨.closedGroup, d⟩ :: σ) t rest htk
  simp only [List.cons_append, List.append_assoc]
  rw [read?_shift hopen]
  refine h.trans (h.tail (htk ▸ hk) d e' σ rest) ?_
  rw [hd]
  refine h.trans htail ?_
  rwa [closeGroup, hd] at hterm

theorem array (hn : o.kind = .openBracket) (hs : Runs R limit b (.listing .array es) ts k) :
    Runs R limit b (.simple (.array es o.location)) (o :: ts) k := by
  intro d σ t rest hd hb hk
  have hopen : step limit ⟨.operand, d, σ⟩ o =
      .shift ⟨.firstItem ⟨.array, o.location, []⟩, d, σ⟩ :=
    step_operand (hd ▸ hb) (by simp [beginOperand?, hn])
  have hlist := hs o.location d σ t rest hd hk
  rw [closeList] at hlist
  simp only [Listing.items, List.reverse_reverse] at hlist
  rwa [List.cons_append, read?_shift hopen]

theorem emptyMap (h : Respects π limit R) (ho : o.kind = .openBrace) (hc : c.kind = .closeBrace) :
    Runs R limit b (.simple (.map [] o.location)) [o, c] k := by
  intro d σ t rest hd hb hk
  have hopen : step limit ⟨.operand, d, σ⟩ o = .shift ⟨.firstKey ⟨o.location, []⟩, d, σ⟩ :=
    step_operand (hd ▸ hb) (by simp [beginOperand?, ho])
  have hclose : step limit ⟨.firstKey ⟨o.location, []⟩, d, σ⟩ c =
      .shift ⟨.afterSimple (.map [] o.location), d, σ⟩ := by simp [step, hc]
  simp only [List.cons_append, List.nil_append]
  rw [read?_shift hopen, read?_shift hclose]
  exact h.refl _

theorem map (ho : o.kind = .openBrace) (hb : (Phrase.entries [] m).Begins ts)
    (hm : Runs R limit b (.entries [] m) ts k) :
    Runs R limit b (.simple (.map m o.location)) (o :: ts) k := by
  intro d σ t rest hd hl hk
  have hopen : step limit ⟨.operand, d, σ⟩ o = .shift ⟨.firstKey ⟨o.location, []⟩, d, σ⟩ :=
    step_operand (hd ▸ hl) (by simp [beginOperand?, ho])
  obtain ⟨u, us, rfl, hu⟩ := hb
  have hfirst : step limit ⟨.firstKey ⟨o.location, []⟩, d, σ⟩ u =
      step limit ⟨.key ⟨o.location, []⟩, d, σ⟩ u := by
    have hne : u.kind ≠ .closeBrace := by rcases hu with hu | hu <;> rw [hu] <;> decide
    simp [step, hne]
  rw [List.cons_append, read?_shift hopen, List.cons_append, read?_congr hfirst]
  exact hm o.location d σ t rest hd hk

theorem subscriptsMore (h : Respects π limit R) (hn : o.kind = .openBracket)
    (hs : Runs R limit b (.listing (.index e) es) ts (ahead us k))
    (hu : Runs R limit b (.subscripts (.subscript e (.collect es o.location) o.location) e') us k) :
    Runs R limit b (.subscripts e e') (o :: (ts ++ us)) k := by
  intro d σ t rest hd hk
  obtain ⟨u, vs, huv, hku⟩ := exists_ahead us t rest
  have hlist := hs o.location d σ u vs hd (by rw [hku, hk])
  rw [← huv, closeList] at hlist
  simp only [Listing.collected, Listing.items, List.reverse_reverse] at hlist
  rw [List.cons_append, List.append_assoc, read?_shift (step_openIndex hn)]
  exact h.trans (hu d σ t rest hd hk) hlist

theorem noItems (h : Respects π limit R) (hc : c.kind = s.closer) :
    Runs R limit b (.listing s []) [c] k := by
  intro loc d σ t rest hd hk
  rw [List.singleton_append, read?_shift (step_firstItem_closer hc)]
  exact h.refl _

theorem someItems (hs : s = .switch → ahead ts k ∈ TokenSet.simpleTerm)
    (hb : (Phrase.items s es).Begins ts) (hi : Runs R limit b (.items s es) ts k) :
    Runs R limit b (.listing s es) ts k := by
  intro loc d σ t rest hd hk
  obtain ⟨u, us, rfl, hu⟩ := hb
  have hne : u.kind ≠ s.closer := by
    intro hc
    rcases hu with hu | ⟨hu, -⟩
    · rcases s.closer_eq with h | h <;> rw [hc, h] at hu <;> exact absurd hu (by decide)
    · rcases s.closer_eq with h | h <;> rw [hc, h] at hu <;> cases hu
  have hitems := hi loc [] d σ t rest hd hk
  rw [List.append_nil] at hitems
  rwa [List.cons_append, read?_congr (step_firstItem hne hs)]

theorem lastItem (hi : Runs R limit b (.item s e) ts s.closer)
    (hc : c.kind = s.closer) : Runs R limit b (.items s [e]) (ts ++ [c]) k := by
  intro loc done d σ t rest hd hk
  have hitem := hi loc done d σ c (t :: rest) hd hc (.inr rfl)
  rw [read?_shift ((step_endBare (.inr hc)).trans (separate_closer hc))] at hitem
  simpa [Listing.add] using hitem

theorem moreItems (h : Respects π limit R) (hi : Runs R limit b (.item s e) ts .comma)
    (hc : c.kind = .comma) (hs : Runs R limit b (.items s es) us k) :
    Runs R limit b (.items s (e :: es)) (ts ++ c :: us) k := by
  intro loc done d σ t rest hd hk
  have hitem := hi loc done d σ c (us ++ t :: rest) hd hc (.inl rfl)
  rw [read?_shift ((step_endBare (.inl hc)).trans (separate_comma hc))] at hitem
  have hitems := hs loc (e :: done) d σ t rest hd hk
  simp only [List.append_assoc, List.cons_append, List.reverse_cons, List.nil_append]
  exact h.trans hitems hitem

/-- An item that begins with an expression is read like one, whatever it ends before. -/
theorem beginsItem (hb : (Phrase.expression e).Begins ts)
    (he : Runs R limit (b + 1) (.expression e) ts k) {d : Chain} (hd : d.depth = b + 1) (l : Listing)
    (σ : List Frame) {t : Token} (hk : t.kind = k) (rest : List Token) :
    R (read? limit ⟨.afterOperand e, .fresh (b + 1), ⟨.item l .absent, d⟩ :: σ⟩ (t :: rest))
      (read? limit ⟨.item l, d, σ⟩ (ts ++ t :: rest)) := by
  obtain ⟨u, us, rfl, hu⟩ := hb
  have hne : u.kind ≠ .range := by
    intro hr
    exact absurd (show u.kind ∈ TokenSet.operand from hu) (by rw [hr]; decide)
  rw [List.cons_append, read?_congr (step_item hne), hd]
  exact he (⟨.item l .absent, d⟩ :: σ) t rest hk

theorem bare (hb : (Phrase.expression e).Begins ts)
    (he : Runs R limit (b + 1) (.expression e) ts k) : Runs R limit b (.item s e) ts k := by
  intro loc done d σ t rest hd htk _
  exact beginsItem hb he hd _ σ htk rest

/-- The end of an item with something before its last expression is the end of a bare item. -/
theorem step_endBounded {l : Listing} {bound : Bound} {d : Chain} {σ : List Frame} {b : Nat}
    {t : Token} (ht : t.kind = .comma ∨ t.kind = l.shape.closer) :
    step limit ⟨.afterOperand (bound.complete e), .fresh b, ⟨.item l .absent, d⟩ :: σ⟩ t =
      step limit ⟨.afterOperand e, .fresh b, ⟨.item l bound, d⟩ :: σ⟩ t := by
  rw [step_endBare ht, step_endItem ht]

theorem bounded (h : Respects π limit R) (hb : (Phrase.expression lo).Begins ts)
    (hl : Runs R limit (b + 1) (.expression lo) ts .range) (hn : n.kind = .range)
    (hh : Runs R limit (b + 1) (.expression hi) us k) :
    Runs R limit b (.item .array (.binary .boundedRange lo hi n.location)) (ts ++ n :: us) k := by
  intro loc done d σ t rest hd htk hk
  have hlower := beginsItem hb hl hd ⟨.array, loc, done⟩ σ hn (us ++ t :: rest)
  rw [read?_shift (step_range_array hn), hd] at hlower
  have hupper := hh (⟨.item ⟨.array, loc, done⟩ (.lower lo n.location), d⟩ :: σ) t rest htk
  rw [← read?_congr (step_endBounded (by rw [htk]; exact hk))] at hupper
  rw [List.append_assoc]
  exact h.trans hupper hlower

theorem boundedIndex (h : Respects π limit R) (hb : (Phrase.expression lo).Begins ts)
    (hl : Runs R limit (b + 1) (.expression lo) ts .range) (hn : n.kind = .range)
    (hbu : (Phrase.expression hi).Begins us) (hu : π.beginsUpper (ahead us k))
    (hh : Runs R limit (b + 1) (.expression hi) us k) :
    Runs R limit b (.item (.index x) (.binary .boundedRange lo hi n.location)) (ts ++ n :: us) k := by
  intro loc done d σ t rest hd htk hk
  have hlower := beginsItem hb hl hd ⟨.index x, loc, done⟩ σ hn (us ++ t :: rest)
  rw [read?_shift (step_range_index hn)] at hlower
  have hupper := hh (⟨.item ⟨.index x, loc, done⟩ (.lower lo n.location), d⟩ :: σ) t rest htk
  rw [← read?_congr (step_endBounded (by rw [htk]; exact hk)), ← hd] at hupper
  obtain ⟨u, us, rfl, hku⟩ := hbu
  have hlook := h.upper hu hku ⟨.index x, loc, done⟩ lo n.location d σ (us ++ t :: rest)
  rw [List.append_assoc, ← hd]
  exact h.trans hupper (h.trans hlook hlower)

theorem leftBounded (hb : (Phrase.expression lo).Begins ts)
    (hl : Runs R limit (b + 1) (.expression lo) ts .range) (hn : n.kind = .range) :
    Runs R limit b (.item (.index x) (.unary .leftBoundedRange lo n.location)) (ts ++ [n]) k := by
  intro loc done d σ t rest hd htk hk
  have hlower := beginsItem hb hl hd ⟨.index x, loc, done⟩ σ hn (t :: rest)
  have hend : t.kind = .comma ∨ t.kind = Shape.closer (.index x) := by rw [htk]; exact hk
  have hbare : step limit ⟨.afterOperand (.unary .leftBoundedRange lo n.location), .fresh (b + 1),
      ⟨.item ⟨.index x, loc, done⟩ .absent, d⟩ :: σ⟩ t =
      step limit ⟨.upperBound ⟨.index x, loc, done⟩ lo n.location, d, σ⟩ t := by
    rw [step_endBare hend, step_upperBound hend]
  rw [read?_shift (step_range_index hn), ← read?_congr hbare] at hlower
  rwa [List.append_assoc]

theorem rightBounded (hn : n.kind = .range) (hh : Runs R limit (b + 1) (.expression hi) us k) :
    Runs R limit b (.item (.index x) (.unary .rightBoundedRange hi n.location)) (n :: us) k := by
  intro loc done d σ t rest hd htk hk
  have hupper := hh (⟨.item ⟨.index x, loc, done⟩ (.dots n.location), d⟩ :: σ) t rest htk
  rw [← read?_congr (step_endBounded (by rw [htk]; exact hk))] at hupper
  rw [List.cons_append, read?_shift (step_item_range hn), hd]
  exact hupper

/-- A key and its colon lead to the value. -/
theorem beginsEntry {t : Token} {d : Chain} {σ : List Frame} {loc : Location} (hd : d.depth = b + 1)
    (ht : t.key? = some key) (hn : n.kind = .colon) (rest : List Token) :
    read? limit ⟨.key ⟨loc, m⟩, d, σ⟩ (t :: n :: rest) =
      read? limit ⟨.expression, .fresh (b + 1), ⟨.value ⟨loc, m⟩ key, d⟩ :: σ⟩ rest := by
  have hkey : step limit ⟨.key ⟨loc, m⟩, d, σ⟩ t = .shift ⟨.colon ⟨loc, m⟩ key, d, σ⟩ :=
    readKey_key ht
  rw [read?_shift hkey, read?_shift (step_colon hn), hd]

theorem lastEntry {t : Token} (ht : t.key? = some key)
    (hn : n.kind = .colon) (he : Runs R limit (b + 1) (.expression e) ts .closeBrace)
    (hc : c.kind = .closeBrace) :
    Runs R limit b (.entries m (Expr.insertEntry key e m)) (t :: n :: (ts ++ [c])) k := by
  intro loc d σ u rest hd hk
  have hvalue := he (⟨.value ⟨loc, m⟩ key, d⟩ :: σ) c (u :: rest) hc
  rw [read?_shift (step_value_closeBrace hc), ← beginsEntry hd ht hn] at hvalue
  simpa using hvalue

theorem moreEntries {t : Token} (h : Respects π limit R) (ht : t.key? = some key)
    (hn : n.kind = .colon) (he : Runs R limit (b + 1) (.expression e) ts .comma)
    (hc : c.kind = .comma) (hm : Runs R limit b (.entries (Expr.insertEntry key e m) m') us k) :
    Runs R limit b (.entries m m') (t :: n :: (ts ++ c :: us)) k := by
  intro loc d σ u rest hd hk
  have hvalue := he (⟨.value ⟨loc, m⟩ key, d⟩ :: σ) c (us ++ u :: rest) hc
  rw [read?_shift (step_value_comma hc), ← beginsEntry hd ht hn] at hvalue
  simp only [List.cons_append, List.append_assoc]
  exact h.trans (hm loc d σ u rest hd hk) hvalue

end Runs

/-- **What the grammar derives is what the parser reads**, up to what the policy leaves open. -/
theorem Derives.runs {π : Policy} {limit : Option Nat} {R : Reading → Reading → Prop}
    (h : Respects π limit R) {b : Nat} {p : Phrase} {ts : List Token} {k : Kind}
    (hd : Derives π limit b p ts k) : Runs R limit b p ts k := by
  induction hd with
  | grouped ho hc _ _ iht ihu => exact .grouped h ho hc iht ihu
  | ungrouped hk ht ih => exact .ungrouped h ht.begins hk ih
  | chain _ _ iho ihu => exact .chain h iho ihu
  | tailEnd => exact fun _ _ _ _ => h.refl _
  | tailMore ht _ _ ihr ihu => exact .tailMore h ht ihr ihu
  | subscripted hb _ _ hk ihs ihu => exact .subscripted h hb ihs ihu hk
  | switch hb ho _ ih => exact .switch hb ho ih
  | atom ht => exact .atom h ht
  | sign ht _ ih => exact .sign ht ih
  | parens ho hc _ _ hk iht ihu => exact .parens h ho hc iht ihu hk
  | array ho _ ih => exact .array ho ih
  | emptyMap ho hc => exact .emptyMap h ho hc
  | map ho hm ih => exact .map ho hm.begins ih
  | subscriptsEnd => exact fun _ _ _ _ _ _ => h.refl _
  | subscriptsMore ho _ _ ihs ihu => exact .subscriptsMore h ho ihs ihu
  | noItems hc => exact .noItems h hc
  | someItems hs hi ih => exact .someItems hs hi.begins ih
  | lastItem _ hc ih => exact .lastItem ih hc
  | moreItems _ hc _ ihi ihs => exact .moreItems h ihi hc ihs
  | bare he ih => exact .bare he.begins ih
  | bounded hl ht _ ihl ihh => exact .bounded h hl.begins ihl ht ihh
  | boundedIndex hl ht hk hh ihl ihh => exact .boundedIndex h hl.begins ihl ht hh.begins hk ihh
  | leftBounded hl ht ih => exact .leftBounded hl.begins ih ht
  | rightBounded ht _ ih => exact .rightBounded ht ih
  | lastEntry ht hn _ hc ih => exact .lastEntry ht hn ih hc
  | moreEntries ht hn _ hc _ ihe ihm => exact .moreEntries h ht hn ihe hc ihm

end Grammar

end EL
