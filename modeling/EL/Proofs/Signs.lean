import EL.Proofs.Chains
import EL.Proofs.Grammar.Contexts
import EL.Proofs.Lenient
import EL.Proofs.Outline

/-!
# What a sign stands in front of

A sign is meant to belong to the single operand behind it, so that the operators that follow have the
signed operand on their left. **That is so unless the operand is in parentheses** (`parse_signs`).
Parentheses in the place of an operand are the beginning of a chain for the parser, and the chain takes
the operators that follow, however many signs stand in front: `-a + b` is the sum of `-a` and `b`, and
`-(a) + b` is what `-((a) + b)` would be but for a pair of parentheses.

Such an operand is *open*, and where an operator is put behind one can be said of its tree alone
(`Expr.follow`): it goes below all signs, and in a chain to the last operand if that is open again.
-/

set_option autoImplicit false

namespace EL

open EL.Parser

namespace Expr

/-- Is an operand open? It is if it is in parentheses, with signs in front of them or operators after
    them or both. -/
def isOpen : Expr → Bool
  | unary .group _ _ => true
  | unary _ e _ => e.isOpen
  | binary op _ _ _ => op ≠ .boundedRange
  | _ => false

/-- What an open operand becomes with an operator and one more operand behind it. -/
def follow (x : Expr) (op : BinaryOp) (y : Expr) (loc : Location) : Expr :=
  match x with
  | unary .group e l => binary op (unary .group e l) y loc
  | unary s e l => unary s (e.follow op y loc) l
  | binary o e r l =>
    if r.isOpen then binary o e (r.follow op y loc) l else binary op (binary o e r l) y loc
  | e => binary op e y loc

theorem isOpen_of_beginsInGroup {e : Expr} (h : e.BeginsInGroup) : e.isOpen = true := by
  cases e with
  | unary op =>
    cases op with
    | group => rfl
    | _ => exact h.elim
  | binary => exact decide_eq_true h.1
  | _ => exact h.elim

section
variable {s : UnaryOp} {e y : Expr} {op : BinaryOp} {l loc : Location}

theorem isOpen_sign (hs : s.IsSign) : (unary s e l).isOpen = e.isOpen := by
  rcases UnaryOp.isSign_iff.mp hs with rfl | rfl | rfl | rfl <;> rfl

theorem follow_sign (hs : s.IsSign) :
    (unary s e l).follow op y loc = unary s (e.follow op y loc) l := by
  rcases UnaryOp.isSign_iff.mp hs with rfl | rfl | rfl | rfl <;> rfl

end

/-- If this is a signed operand, then that has no operands of its own. -/
def SignsSimple : Expr → Prop
  | unary op (binary _ _ _ _) _ => ¬ op.IsSign
  | _ => True

/-- If this is a signed operand with operands of its own, then that is a chain, and begins with
    parentheses. -/
def SignsWell : Expr → Prop
  | unary op (binary o x r l) _ => op.IsSign → (binary o x r l).BeginsInGroup
  | _ => True

end Expr

namespace Grammar

section
variable {limit : Option Nat} {b : Nat} {p : Phrase} {ts : List Token} {k : Kind}

/-! ## Operands that are not open -/

/-- Can the phrase end before other tokens than the one it is derived before? -/
def Phrase.Closes (limit : Option Nat) (b : Nat) (ts : List Token) (p : Phrase) : Prop :=
  match p with
  | .operand e | .simple e => e.isOpen = false →
      ∀ k', k' ≠ .openBracket → Derives .longest limit b p ts k'
  | .subscripts _ _ | .listing _ _ | .items _ _ | .entries _ _ =>
      ∀ k', Derives .longest limit b p ts k'
  | _ => True

/-- **An operand that is not open ends before every token that opens no subscript.** -/
theorem Derives.closes (h : Derives .longest limit b p ts k) : p.Closes limit b ts := by
  induction h with
  | grouped | ungrouped | chain | tailEnd | tailMore => exact trivial
  | @subscripted b ts us k e e' hb hs hu hk ihs ihu =>
    intro hopen k' hk'
    cases us with
    | nil =>
      cases hu
      exact .subscripted hb (ihs hopen k' hk') .subscriptsEnd hk'
    | cons t us => exact .subscripted hb hs (ihu k') hk'
  | switch hb ho _ ih => exact fun _ k' _ => .switch hb ho (ih k')
  | atom ht => exact fun _ _ _ => .atom ht
  | sign ht _ ih =>
    intro hopen k' hk'
    rw [Expr.isOpen_sign ⟨_, ht⟩] at hopen
    exact .sign ht (ih hopen k' hk')
  | parens _ _ _ hu =>
    intro hopen
    have := Expr.isOpen_of_beginsInGroup (hu.endsWhereItCan trivial)
    simp [this] at hopen
  | array ho _ ih => exact fun _ k' _ => .array ho (ih k')
  | emptyMap ho hc => exact fun _ _ _ => .emptyMap ho hc
  | map ho _ ih => exact fun _ k' _ => .map ho (ih k')
  | subscriptsEnd => exact fun _ => .subscriptsEnd
  | @subscriptsMore b o ts us k e e' es ho hs hu ihs ihu =>
    exact fun k' => .subscriptsMore ho (ihs (ahead us k')) (ihu k')
  | noItems hc => exact fun _ => .noItems hc
  | someItems hs hi ih =>
    obtain ⟨t, us, hts, -⟩ := hi.begins
    exact fun k' => .someItems (ahead_of_begins hts _ k' ▸ hs) (ih k')
  | lastItem hi hc => exact fun _ => .lastItem hi hc
  | moreItems hi hc _ _ ih => exact fun k' => .moreItems hi hc (ih k')
  | bare | bounded | boundedIndex | leftBounded | rightBounded => exact trivial
  | lastEntry ht hn he hc => exact fun _ => .lastEntry ht hn he hc
  | moreEntries ht hn he hc _ _ ih => exact fun k' => .moreEntries ht hn he hc (ih k')

end

/-! ## Operands that are open -/

/-- An operator and the operand that follows it at the end of a chain. -/
structure Continues (op : BinaryOp) (y : Expr) (o : Token) (ys : List Token) (k : Kind) : Prop where
  operator : BinaryOp.ofKind? o.kind = some op
  operand : ∀ b, Derives .longest none b (.operand y) ys k

section
variable {op : BinaryOp} {x y : Expr} {o : Token} {xs ys : List Token} {k : Kind} {b : Nat}

theorem Continues.tail (h : Continues op y o ys k) (x : Expr) :
    Derives .longest none b (.tail x (.binary op x y o.location)) (o :: ys) k := by
  have hend := Derives.tailMore h.operator (h.operand b) (.tailEnd (e := .binary op x y o.location))
  rwa [List.append_nil] at hend

/-- What becomes of a phrase with the operator and its operand behind it. The tree of an open operand is
    known, and so is that of a tail, which ends in an operand unless it is empty. -/
def Phrase.Extends (op : BinaryOp) (y : Expr) (o : Token) (ys : List Token) (b : Nat)
    (ts : List Token) (k : Kind) (p : Phrase) : Prop :=
  match p with
  | .operand x => x.isOpen = true →
      Derives .longest none b (.operand (x.follow op y o.location)) (ts ++ o :: ys) k
  | .simple x => x.isOpen = true →
      Derives .longest none b (.simple (x.follow op y o.location)) (ts ++ o :: ys) k
  | .tail e e' => ts = [] ∧ e' = e ∨
      Derives .longest none b (.tail e (e'.follow op y o.location)) (ts ++ o :: ys) k
  | _ => True

/-- The last operand of a chain takes what follows if it is open, and the chain takes it if not. -/
theorem extends_last {t : Token} {o' : BinaryOp} {r : Expr} {ts : List Token}
    (h : Continues op y o ys k) (ht : BinaryOp.ofKind? t.kind = some o')
    (hr : Derives .longest none b (.operand r) ts k)
    (hopen : (Phrase.operand r).Extends op y o ys b ts k) (e : Expr) :
    Derives .longest none b (.tail e ((Expr.binary o' e r t.location).follow op y o.location))
      (t :: (ts ++ o :: ys)) k := by
  unfold Expr.follow
  split
  · rename_i hr'
    have hlast := Derives.tailMore ht (hopen hr')
      (.tailEnd (e := .binary o' e (r.follow op y o.location) t.location))
    rwa [List.append_nil] at hlast
  · rename_i hr'
    have hbefore := hr.closes (Bool.eq_false_iff.mpr hr') o.kind
      (ne_openBracket_of_ofKind? h.operator)
    exact .tailMore ht hbefore (h.tail _)

/-- **An open operand takes what follows.** -/
theorem Derives.extends {p : Phrase} {ts : List Token} (hd : Derives .longest none b p ts k)
    (h : Continues op y o ys k) : p.Extends op y o ys b ts k := by
  induction hd with
  | tailEnd => exact .inl ⟨rfl, rfl⟩
  | @tailMore b t ts us k o' e r e' ht hr hu ihr ihu =>
    right
    rcases ihu h with ⟨rfl, rfl⟩ | hrest
    · rw [List.append_nil]
      exact extends_last h ht hr (ihr h) e
    · cases us with
      | nil =>
        rw [List.append_nil]
        cases hu
        exact extends_last h ht hr (ihr h) e
      | cons u us =>
        have hbefore : Derives .longest none b (.operand r) ts (ahead (u :: us ++ o :: ys) k) := hr
        have hmore := Derives.tailMore ht hbefore hrest
        simpa using hmore
  | @subscripted b ts us k e e' hb hs hu hk ihs ihu =>
    intro hopen
    rcases hu.endsWhereItCan with ⟨rfl, rfl⟩ | ⟨x, i, loc, rfl⟩
    · have hend := Derives.subscripted hb (ihs h hopen) .subscriptsEnd hk
      simpa using hend
    · cases hopen
  | sign ht _ ih =>
    intro hopen
    rw [Expr.isOpen_sign ⟨_, ht⟩] at hopen
    rw [Expr.follow_sign ⟨_, ht⟩]
    exact .sign ht (ih h hopen)
  | @parens b p c ts us k e e' ho hc ht hu hk iht ihu =>
    intro _
    have hmore : Derives .longest none (b + 1) (.tail (.unary .group e p.location)
        (e'.follow op y o.location)) (us ++ o :: ys) k := by
      rcases ihu h with ⟨rfl, rfl⟩ | hmore
      · exact h.tail _
      · exact hmore
    have hgroup := Derives.parens ho hc ht hmore hk
    simpa using hgroup
  | atom ht =>
    intro hopen
    rcases Token.eq_of_atom? ht with ⟨v, loc, rfl⟩ | ⟨x, loc, rfl⟩ <;> cases hopen
  | switch | array | emptyMap | map => exact fun hopen => by cases hopen
  | _ => exact trivial

end

/-- **A signed operand that is a chain begins with parentheses.** -/
theorem Derives.signsWell {limit : Option Nat} {b : Nat} {e : Expr} {ts : List Token} {k : Kind}
    (h : Derives .longest limit b (.expression e) ts k) : e.All Expr.SignsWell := by
  refine h.all_of_signs (Q := fun _ => True) ?leaf ?other ?sign ?chain fun _ _ => trivial
  case leaf =>
    intro t e _ ht
    rcases Token.eq_of_atom? ht with ⟨v, loc, rfl⟩ | ⟨x, loc, rfl⟩ <;> exact trivial
  case other =>
    intro e _ _ hsigned
    cases e with
    | unary op e =>
      cases e with
      | binary => exact fun hs => absurd hs hsigned
      | _ => exact trivial
    | _ => exact trivial
  case sign =>
    intro b e op loc t ts k _ ho
    cases e with
    | binary o x r l =>
      intro _
      refine ho.endsWhereItCan.2 ?_
      rintro rfl
      exact ho.outline.2 trivial
    | _ => exact trivial
  case chain => exact fun _ _ _ => trivial

end Grammar

/-- These tokens, by themselves, are read as an operand. -/
def IsOperand (x : Expr) (ts : List Token) : Prop :=
  Grammar.Derives .longest none 0 (.operand x) ts .endOfInput

/-- A simple term is an operand without subscripts. -/
theorem isOperand_of_simple {x : Expr} {ts : List Token}
    (h : Grammar.Derives .longest none 0 (.simple x) ts .endOfInput) : IsOperand x ts := by
  have hb : Grammar.Admits none 1 := fun n hn => by cases hn
  have hend : Kind.endOfInput ≠ .openBracket := by decide
  have ho := Grammar.Derives.subscripted hb h .subscriptsEnd hend
  rwa [List.append_nil] at ho

section
variable {c : Cursor} {u o : Token} {xs ys : List Token} {s : UnaryOp} {op : BinaryOp} {x y : Expr}

theorem not_openParen_of_ofKind? (hu : UnaryOp.ofKind? u.kind = some s) : u.kind ≠ .openParen := by
  intro hk
  rw [hk] at hu
  cases hu

/-- The sign stays with an operand that is not open. -/
theorem parse_sign_closed (hscans : c.Scans (u :: (xs ++ o :: ys)))
    (hu : UnaryOp.ofKind? u.kind = some s) (ho : BinaryOp.ofKind? o.kind = some op)
    (hx : IsOperand x xs) (hy : IsOperand y ys) (hopen : x.isOpen = false) :
    (c.parse {}).1 = .ok (.binary op (.unary s x u.location) y o.location) := by
  have hb : Grammar.Admits none 1 := fun n hn => by cases hn
  have hne := Grammar.ne_openBracket_of_ofKind? ho
  have hcontinues : Grammar.Continues op y o ys .endOfInput := ⟨ho, fun b => hy.rebase b (.refl _)⟩
  have hx1 : Grammar.Derives .longest none 1 (.operand x) xs .endOfInput := hx.rebase 1 (.refl _)
  have hsigned : Grammar.Derives .longest none 0 (.operand (.unary s x u.location))
      (u :: xs ++ []) (Grammar.ahead (o :: ys) .endOfInput) :=
    .subscripted hb (.sign hu (hx1.closes hopen o.kind hne)) .subscriptsEnd hne
  have hterm := Grammar.Derives.chain hsigned (hcontinues.tail _)
  refine parse_strict_iff_derives.mpr ⟨_, hscans, .ungrouped (not_openParen_of_ofKind? hu) ?_⟩
  simpa using hterm

/-- The sign of an open operand belongs to all that the operand takes. -/
theorem parse_sign_open (hscans : c.Scans (u :: (xs ++ o :: ys)))
    (hu : UnaryOp.ofKind? u.kind = some s) (ho : BinaryOp.ofKind? o.kind = some op)
    (hx : IsOperand x xs) (hy : IsOperand y ys) (hopen : x.isOpen = true) :
    (c.parse {}).1 = .ok (.unary s (x.follow op y o.location) u.location) := by
  have hb : Grammar.Admits none 1 := fun n hn => by cases hn
  have hend : Kind.endOfInput ≠ .openBracket := by decide
  have hcontinues : Grammar.Continues op y o ys .endOfInput := ⟨ho, fun b => hy.rebase b (.refl _)⟩
  have hx1 : Grammar.Derives .longest none 1 (.operand x) xs .endOfInput := hx.rebase 1 (.refl _)
  have hsigned := Grammar.Derives.subscripted hb (.sign hu (hx1.extends hcontinues hopen))
    .subscriptsEnd hend
  have hterm := Grammar.Derives.chain hsigned .tailEnd
  refine parse_strict_iff_derives.mpr ⟨_, hscans, .ungrouped (not_openParen_of_ofKind? hu) ?_⟩
  simpa using hterm

end

/-- **What a sign belongs to.** In every tree that is read, a signed operand has operands of its own only
    if it begins with parentheses. And what becomes of a text of a sign, an operand, an operator and one
    more operand depends on the first of the two: if it is open, the sign belongs to what it becomes with
    the other one; if it is not, the sign belongs to it alone, and the operator has the signed operand on
    its left. -/
theorem parse_signs (c : Cursor) :
    (∀ (o : ParseOptions) (e : Expr) (stop : Cursor), c.parse o = (.ok e, stop) →
      e.All Expr.SignsWell) ∧
    ∀ (u o : Token) (xs ys : List Token) (s : UnaryOp) (op : BinaryOp) (x y : Expr),
      c.Scans (u :: (xs ++ o :: ys)) → UnaryOp.ofKind? u.kind = some s →
      BinaryOp.ofKind? o.kind = some op → IsOperand x xs → IsOperand y ys →
      (x.isOpen = false →
        (c.parse {}).1 = .ok (.binary op (.unary s x u.location) y o.location)) ∧
      (x.isOpen = true →
        (c.parse {}).1 = .ok (.unary s (x.follow op y o.location) u.location)) := by
  constructor
  · intro o e stop h
    obtain ⟨c', ts, -, hd⟩ := exists_derives_of_parse h
    exact hd.signsWell
  · intro u o xs ys s op x y hscans hu ho hx hy
    exact ⟨parse_sign_closed hscans hu ho hx hy, parse_sign_open hscans hu ho hx hy⟩

/-- The sum of `-a` and `b` is written `-a + b`, and `-(a) + b` is the negation of a sum. -/
theorem parse_signs_parentheses :
    parseStrict "-a + b" = .ok (.binary .addition (.unary .minus (.var "a" ⟨1, 2⟩) ⟨1, 1⟩)
      (.var "b" ⟨1, 6⟩) ⟨1, 4⟩) ∧
    parseStrict "-(a) + b" = .ok (.unary .minus (.binary .addition
      (.unary .group (.var "a" ⟨1, 3⟩) ⟨1, 2⟩) (.var "b" ⟨1, 8⟩) ⟨1, 6⟩) ⟨1, 1⟩) := by
  constructor
  · have hscans : (Cursor.ofText "-a + b").tokens = .ok (
        (⟨.minus, "-", 0, 1, 1⟩ :: ([⟨.name, "a", 1, 1, 2⟩] ++ ⟨.plus, "+", 3, 1, 4⟩ ::
          [⟨.name, "b", 5, 1, 6⟩])) ++ [⟨.endOfInput, "", 6, 1, 7⟩]) :=
      Cursor.tokens_of_scanWithin 6 rfl
    have hx : IsOperand (.var "a" ⟨1, 2⟩) [⟨.name, "a", 1, 1, 2⟩] :=
      isOperand_of_simple (.atom rfl)
    have hy : IsOperand (.var "b" ⟨1, 6⟩) [⟨.name, "b", 5, 1, 6⟩] :=
      isOperand_of_simple (.atom rfl)
    exact ((parse_signs _).2 _ _ _ _ .minus .addition _ _ ⟨_, hscans, rfl⟩ rfl rfl hx hy).1 rfl
  · have hscans : (Cursor.ofText "-(a) + b").tokens = .ok (
        (⟨.minus, "-", 0, 1, 1⟩ :: ([⟨.openParen, "(", 1, 1, 2⟩, ⟨.name, "a", 2, 1, 3⟩,
          ⟨.closeParen, ")", 3, 1, 4⟩] ++ ⟨.plus, "+", 5, 1, 6⟩ :: [⟨.name, "b", 7, 1, 8⟩])) ++
        [⟨.endOfInput, "", 8, 1, 9⟩]) :=
      Cursor.tokens_of_scanWithin 8 rfl
    have hgroup : Grammar.Derives .longest none 0 (.simple (.unary .group (.var "a" ⟨1, 3⟩) ⟨1, 2⟩))
        (⟨.openParen, "(", 1, 1, 2⟩ :: ([⟨.name, "a", 2, 1, 3⟩] ++ [⟨.closeParen, ")", 3, 1, 4⟩]))
        .endOfInput :=
      .parens rfl rfl (.term_of_atom nofun rfl) .tailEnd rfl
    have hx : IsOperand (.unary .group (.var "a" ⟨1, 3⟩) ⟨1, 2⟩) [⟨.openParen, "(", 1, 1, 2⟩,
        ⟨.name, "a", 2, 1, 3⟩, ⟨.closeParen, ")", 3, 1, 4⟩] :=
      isOperand_of_simple hgroup
    have hy : IsOperand (.var "b" ⟨1, 8⟩) [⟨.name, "b", 7, 1, 8⟩] :=
      isOperand_of_simple (.atom rfl)
    exact ((parse_signs _).2 _ _ _ _ .minus .addition _ _ ⟨_, hscans, rfl⟩ rfl rfl hx hy).2 rfl

/-- Signs do stand in front of whole chains. -/
theorem not_all_signsSimple :
    ¬ ∀ text e, parseStrict text = .ok e → e.All Expr.SignsSimple := by
  intro h
  have hparse : parseStrict "-(a) + b" = .ok (.unary .minus (.binary .addition
      (.unary .group (.var "a" ⟨1, 3⟩) ⟨1, 2⟩) (.var "b" ⟨1, 8⟩) ⟨1, 6⟩) ⟨1, 1⟩) :=
    parseStrict_eq_ok_iff.mpr ⟨_, Cursor.tokens_of_scanWithin 8 rfl, rfl⟩
  exact (h _ _ hparse).root ⟨.minus, rfl⟩

end EL
