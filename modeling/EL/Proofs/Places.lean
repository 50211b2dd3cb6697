import EL.Proofs.Grammar.Runs

/-!
# Places decide nothing

A place goes from a token into the tree or into an error and is never looked at on the way. So
**moving the tokens moves what is made of them, and changes nothing else**: each part of a step
commutes with a map `f` of places, and therefore a step does (`step_relocate`), and a parse of
tokens (`read?_relocate`).

The offset of a token is not even handed on. Relocating drops it.
-/

set_option autoImplicit false

namespace EL

namespace Expr

mutual

/-- The tree with all its places moved. -/
def relocate (f : Location → Location) : Expr → Expr
  | literal v l => literal v (f l)
  | var x l => var x (f l)
  | unary op e l => unary op (e.relocate f) (f l)
  | binary op a b l => binary op (a.relocate f) (b.relocate f) (f l)
  | array es l => array (relocateList f es) (f l)
  | map m l => map (relocateEntries f m) (f l)
  | switch es l => switch (relocateList f es) (f l)
  | subscript a i l => subscript (a.relocate f) (i.relocate f) (f l)

/-- The trees of a list, moved. -/
def relocateList (f : Location → Location) : List Expr → List Expr
  | [] => []
  | e :: es => e.relocate f :: relocateList f es

/-- The values of a map, moved. -/
def relocateEntries (f : Location → Location) : List (String × Expr) → List (String × Expr)
  | [] => []
  | (k, e) :: m => (k, e.relocate f) :: relocateEntries f m

end

variable (f : Location → Location)

theorem relocateList_eq (es : List Expr) : relocateList f es = es.map (relocate f) := by
  induction es with
  | nil => rfl
  | cons e es ih => rw [relocateList, ih, List.map_cons]

theorem relocateEntries_eq (m : List (String × Expr)) :
    relocateEntries f m = m.map fun kv => (kv.1, kv.2.relocate f) := by
  induction m with
  | nil => rfl
  | cons kv m ih => rw [relocateEntries, ih, List.map_cons]

theorem relocate_insertEntry (key : String) (e : Expr) : ∀ m : List (String × Expr),
    relocateEntries f (insertEntry key e m) =
      insertEntry key (e.relocate f) (relocateEntries f m) := by
  intro m
  induction m with
  | nil => rfl
  | cons kv m ih =>
    simp only [insertEntry, relocateEntries]
    split
    · rfl
    · split
      · rfl
      · rw [relocateEntries, ih]

end Expr

/-- The token, moved. -/
def Token.relocate (f : Location → Location) (t : Token) : Token := ⟨t.kind, t.text, 0, f t.location⟩

@[simp] theorem Token.kind_relocate (f : Location → Location) (t : Token) :
    (t.relocate f).kind = t.kind := rfl

/-- The cause, with the token that it names moved. -/
def Cause.relocate (f : Location → Location) : Cause → Cause
  | expected set got => expected set (got.relocate f)
  | c => c

namespace Parser

section
variable (f : Location → Location)

/-- The chain, moved. -/
def Chain.relocate (c : Chain) : Chain :=
  ⟨c.left.map fun x => (x.1.relocate f, x.2.1, f x.2.2), c.signs.map fun x => (x.1, f x.2), c.base⟩

/-- What the items are items of, moved. -/
def Shape.relocate : Shape → Shape
  | .array => .array
  | .switch => .switch
  | .index target => .index (target.relocate f)

/-- The list, moved. -/
def Listing.relocate (l : Listing) : Listing :=
  ⟨l.shape.relocate f, f l.loc, l.done.map (Expr.relocate f)⟩

/-- What precedes the expression of an item, moved. -/
def Bound.relocate : Bound → Bound
  | .absent => .absent
  | .lower e loc => .lower (e.relocate f) (f loc)
  | .dots loc => .dots (f loc)

/-- The map, moved. -/
def Entries.relocate (m : Entries) : Entries := ⟨f m.loc, Expr.relocateEntries f m.done⟩

/-- The bracket, moved. -/
def Bracket.relocate : Bracket → Bracket
  | .group loc asOperand => .group (f loc) asOperand
  | .closedGroup => .closedGroup
  | .item l bound => .item (l.relocate f) (bound.relocate f)
  | .value m key => .value (m.relocate f) key

/-- The frame, moved. -/
def Frame.relocate (x : Frame) : Frame := ⟨x.bracket.relocate f, x.outer.relocate f⟩

/-- What is read next, moved. -/
def Goal.relocate : Goal → Goal
  | .expression => .expression
  | .operand => .operand
  | .afterSimple e => .afterSimple (e.relocate f)
  | .afterOperand e => .afterOperand (e.relocate f)
  | .firstItem l => .firstItem (l.relocate f)
  | .item l => .item (l.relocate f)
  | .upperBound l e loc => .upperBound (l.relocate f) (e.relocate f) (f loc)
  | .firstKey m => .firstKey (m.relocate f)
  | .key m => .key (m.relocate f)
  | .colon m k => .colon (m.relocate f) k

/-- The state, moved. -/
def State.relocate (s : State) : State :=
  ⟨s.goal.relocate f, s.chain.relocate f, s.stack.map (Frame.relocate f)⟩

/-- The outcome, moved. -/
def Outcome.relocate : Outcome → Outcome
  | .shift s => .shift (s.relocate f)
  | .accept e => .accept (e.relocate f)
  | .refuse cause consumed => .refuse (cause.relocate f) consumed

theorem Chain.applySigns_relocate (signs : List (UnaryOp × Location)) (e : Expr) :
    applySigns (signs.map fun x => (x.1, f x.2)) (e.relocate f) =
      (applySigns signs e).relocate f := by
  induction signs generalizing e with
  | nil => rfl
  | cons s signs ih => exact ih (.unary s.1 e s.2)

theorem Chain.complete_relocate (c : Chain) (e : Expr) :
    (c.relocate f).complete (e.relocate f) = (c.complete e).relocate f := by
  obtain ⟨left, signs, base⟩ := c
  cases left with
  | none => exact applySigns_relocate f signs e
  | some x =>
    simp only [Chain.complete, Chain.relocate, Option.map_some, applySigns_relocate]
    rfl

theorem Chain.depth_relocate (c : Chain) : (c.relocate f).depth = c.depth := by
  simp only [Chain.depth, Chain.relocate, List.length_map]

theorem Shape.closer_relocate (s : Shape) : (s.relocate f).closer = s.closer := by
  cases s <;> rfl

theorem Listing.closer_relocate (l : Listing) : (l.relocate f).closer = l.closer := by
  obtain ⟨shape, loc, done⟩ := l
  cases shape <;> rfl

theorem Listing.items_relocate (l : Listing) :
    (l.relocate f).items = Expr.relocateList f l.items := by
  rw [Expr.relocateList_eq, Listing.items, Listing.items, List.map_reverse]
  rfl

theorem Listing.collected_relocate (l : Listing) :
    (l.relocate f).collected = l.collected.relocate f := by
  unfold Listing.collected
  rw [Listing.items_relocate, Expr.relocateList_eq]
  split <;> split
  all_goals simp_all [Expr.relocate, Expr.relocateList_eq, Listing.relocate]

theorem Bound.complete_relocate (b : Bound) (e : Expr) :
    (b.relocate f).complete (e.relocate f) = (b.complete e).relocate f := by
  cases b <;> rfl

/-! ## Steps -/

variable (limit : Option Nat) (t : Token) (e : Expr) (c : Chain) (σ : List Frame)

theorem beginOperand?_relocate :
    beginOperand? (c.relocate f) (σ.map (Frame.relocate f)) (t.relocate f) =
      (beginOperand? c σ t).map (Outcome.relocate f) := by
  obtain ⟨kind, text, start⟩ := t
  cases kind with
  | number =>
    simp only [beginOperand?, Token.relocate]
    split <;> rfl
  | openParen =>
    simp only [beginOperand?, Token.relocate, Chain.depth_relocate]
    rfl
  | _ => rfl

theorem beginOperand_relocate :
    beginOperand limit (c.relocate f) (σ.map (Frame.relocate f)) (t.relocate f) =
      (beginOperand limit c σ t).relocate f := by
  unfold beginOperand
  rw [beginOperand?_relocate, Chain.depth_relocate]
  cases beginOperand? c σ t with
  | none => rfl
  | some out =>
    cases limit with
    | none => rfl
    | some n =>
      simp only [Option.map_some]
      split <;> rfl

theorem beginExpression_relocate :
    beginExpression limit (c.relocate f) (σ.map (Frame.relocate f)) (t.relocate f) =
      (beginExpression limit c σ t).relocate f := by
  unfold beginExpression
  rw [Token.kind_relocate]
  split
  · rfl
  · exact beginOperand_relocate f limit t c σ

/-- An expression in brackets, moved, begins where the brackets were moved to. -/
theorem beginInside_relocate (b : Bracket) :
    beginExpression limit (.fresh c.depth) (⟨b.relocate f, c.relocate f⟩ :: σ.map (Frame.relocate f))
        (t.relocate f) =
      (beginExpression limit (.fresh c.depth) (⟨b, c⟩ :: σ) t).relocate f :=
  beginExpression_relocate f limit t (.fresh c.depth) (⟨b, c⟩ :: σ)

theorem beginItem_relocate (l : Listing) :
    beginItem limit (l.relocate f) (c.relocate f) (σ.map (Frame.relocate f)) (t.relocate f) =
      (beginItem limit l c σ t).relocate f := by
  obtain ⟨kind, text, start⟩ := t
  obtain ⟨shape, loc, done⟩ := l
  have hinside := beginInside_relocate f limit ⟨kind, text, start⟩ c σ (.item ⟨shape, loc, done⟩ .absent)
  unfold beginItem
  rw [Chain.depth_relocate]
  cases shape with
  | index target =>
    cases kind with
    | range => rfl
    | _ => exact hinside
  | _ =>
    cases kind <;> exact hinside

theorem closeList_relocate (l : Listing) :
    closeList (l.relocate f) (c.relocate f) (σ.map (Frame.relocate f)) =
      (closeList l c σ).relocate f := by
  have hitems := Listing.items_relocate f l
  have hcollected := Listing.collected_relocate f l
  obtain ⟨shape, loc, done⟩ := l
  cases shape with
  | array =>
    simp only [closeList, hitems]
    rfl
  | index target =>
    simp only [closeList, hcollected]
    rfl
  | switch =>
    obtain ⟨left, signs, base⟩ := c
    have hcomplete := Chain.complete_relocate f ⟨left, signs, base⟩
      (.switch (Listing.items ⟨.switch, loc, done⟩) loc)
    simp only [closeList, hitems]
    cases signs with
    | nil =>
      simp only [State.relocate, Goal.relocate, ← hcomplete]
      rfl
    | cons s signs => rfl

theorem separate_relocate (l : Listing) :
    separate (l.relocate f) (c.relocate f) (σ.map (Frame.relocate f)) (t.relocate f) =
      (separate l c σ t).relocate f := by
  unfold separate
  rw [Token.kind_relocate, Listing.closer_relocate, closeList_relocate]
  split
  · rfl
  · split <;> rfl

theorem endItem_relocate (l : Listing) (b : Bound) :
    endItem (l.relocate f) (b.relocate f) (e.relocate f) (c.relocate f) (σ.map (Frame.relocate f))
        (t.relocate f) = (endItem l b e c σ t).relocate f := by
  have hseparate := separate_relocate f t c σ (l.add (b.complete e))
  by_cases hr : t.kind = .range ∧ b = .absent
  · obtain ⟨hk, rfl⟩ := hr
    obtain ⟨shape, loc, done⟩ := l
    unfold endItem
    rw [Token.kind_relocate, hk]
    cases shape with
    | array =>
      simp only [Bound.relocate, Listing.relocate, Shape.relocate, Chain.depth_relocate]
      rfl
    | index target => rfl
    | switch => exact hseparate
  · rw [endItem_eq_separate hr, endItem_eq_separate, Bound.complete_relocate]
    · exact hseparate
    · rintro ⟨hk, hb⟩
      cases b with
      | absent => exact hr ⟨hk, rfl⟩
      | lower | dots => cases hb

theorem readKey_relocate (m : Entries) :
    readKey (m.relocate f) (c.relocate f) (σ.map (Frame.relocate f)) (t.relocate f) =
      (readKey m c σ t).relocate f := by
  obtain ⟨kind, text, start⟩ := t
  cases kind <;> rfl

theorem endValue_relocate (m : Entries) (key : String) :
    endValue (m.relocate f) key (e.relocate f) (c.relocate f) (σ.map (Frame.relocate f))
        (t.relocate f) = (endValue m key e c σ t).relocate f := by
  have hinsert := Expr.relocate_insertEntry f key e m.done
  obtain ⟨kind, text, start⟩ := t
  simp only [endValue, Entries.relocate, ← hinsert]
  cases kind <;> rfl

theorem closeGroup_relocate (loc : Location) (asOperand : Bool) :
    closeGroup (f loc) asOperand (e.relocate f) (c.relocate f) (σ.map (Frame.relocate f)) =
      (closeGroup loc asOperand e c σ).relocate f := by
  cases asOperand with
  | false => rfl
  | true =>
    simp only [closeGroup, Chain.depth_relocate]
    rfl

theorem leave_relocate : ∀ (σ : List Frame) (e : Expr),
    leave (t.relocate f) (e.relocate f) (σ.map (Frame.relocate f)) = (leave t e σ).relocate f
  | [], _ => rfl
  | ⟨.closedGroup, outer⟩ :: σ, e => by
    rw [List.map_cons, Frame.relocate, Bracket.relocate, leave, leave, Token.kind_relocate]
    split
    · rfl
    · rw [Chain.complete_relocate]
      exact leave_relocate σ (outer.complete e)
  | ⟨.group loc asOperand, outer⟩ :: σ, e => by
    rw [List.map_cons, Frame.relocate, Bracket.relocate, leave, leave, Token.kind_relocate]
    split
    · rw [closeGroup_relocate]
      rfl
    · rfl
  | ⟨.item l bound, outer⟩ :: σ, e => endItem_relocate f t e outer σ l bound
  | ⟨.value m key, outer⟩ :: σ, e => endValue_relocate f t e outer σ m key

theorem afterOperand_relocate :
    afterOperand (e.relocate f) (c.relocate f) (σ.map (Frame.relocate f)) (t.relocate f) =
      (afterOperand e c σ t).relocate f := by
  unfold afterOperand
  rw [Token.kind_relocate]
  cases BinaryOp.ofKind? t.kind with
  | some op => rfl
  | none => exact leave_relocate f t σ e

theorem afterSimple_relocate :
    afterSimple (e.relocate f) (c.relocate f) (σ.map (Frame.relocate f)) (t.relocate f) =
      (afterSimple e c σ t).relocate f := by
  unfold afterSimple
  rw [Token.kind_relocate, Chain.complete_relocate]
  split
  · rfl
  · exact afterOperand_relocate f t (c.complete e) (.fresh c.base) σ

theorem firstItem_relocate (l : Listing) :
    step limit ⟨.firstItem (l.relocate f), c.relocate f, σ.map (Frame.relocate f)⟩ (t.relocate f) =
      (step limit ⟨.firstItem l, c, σ⟩ t).relocate f := by
  have hitem := beginItem_relocate f limit t c σ l
  simp only [step]
  rw [Token.kind_relocate, Listing.closer_relocate, closeList_relocate]
  split
  · rfl
  · obtain ⟨shape, loc, done⟩ := l
    cases shape with
    | array | index => exact hitem
    | switch =>
      by_cases hs : t.kind ∈ TokenSet.simpleTerm
      · simp only [if_pos hs]
        exact hitem
      · simp only [if_neg hs]
        rfl

theorem upperBound_relocate (l : Listing) (loc : Location) :
    step limit ⟨.upperBound (l.relocate f) (e.relocate f) (f loc), c.relocate f,
        σ.map (Frame.relocate f)⟩ (t.relocate f) =
      (step limit ⟨.upperBound l e loc, c, σ⟩ t).relocate f := by
  simp only [step, Token.kind_relocate, Chain.depth_relocate]
  split
  · exact beginInside_relocate f limit t c σ (.item l (.lower e loc))
  · exact separate_relocate f t c σ (l.add (.unary .leftBoundedRange e loc))

/-- **A step does not look at places.** -/
theorem step_relocate (s : State) :
    step limit (s.relocate f) (t.relocate f) = (step limit s t).relocate f := by
  obtain ⟨goal, c, σ⟩ := s
  cases goal with
  | expression => exact beginExpression_relocate f limit t c σ
  | operand => exact beginOperand_relocate f limit t c σ
  | afterSimple e => exact afterSimple_relocate f t e c σ
  | afterOperand e => exact afterOperand_relocate f t e c σ
  | firstItem l => exact firstItem_relocate f limit t c σ l
  | item l => exact beginItem_relocate f limit t c σ l
  | upperBound l e loc => exact upperBound_relocate f limit t e c σ l loc
  | firstKey m =>
    have hkey := readKey_relocate f t c σ m
    simp only [step, State.relocate, Goal.relocate]
    rw [Token.kind_relocate]
    split
    · rfl
    · exact hkey
  | key m => exact readKey_relocate f t c σ m
  | colon m key =>
    simp only [step, State.relocate, Goal.relocate, Token.kind_relocate, Chain.depth_relocate]
    split <;> rfl

/-- **Neither does a parse.** What is made of moved tokens is moved, and nothing else. -/
theorem read?_relocate : ∀ (s : State) (ts : List Token),
    read? limit (s.relocate f) (ts.map (Token.relocate f)) =
      (read? limit s ts).map (Expr.relocate f)
  | _, [] => rfl
  | s, t :: ts => by
    rw [List.map_cons, read?, read?, step_relocate]
    cases step limit s t with
    | shift s' => exact read?_relocate s' ts
    | accept e =>
      simp only [Outcome.relocate]
      rw [Token.kind_relocate]
      split <;> rfl
    | refuse cause consumed => rfl

end

/-! ## Equal outcomes -/

namespace Outcome

variable {f g : Location → Location} {out : Outcome}

theorem shift_of_relocate {s : State} (h : out.relocate g = (Outcome.shift s).relocate f) :
    ∃ s', out = .shift s' ∧ s'.relocate g = s.relocate f := by
  cases out with
  | shift s' => exact ⟨s', rfl, Outcome.shift.inj h⟩
  | accept e | refuse cause consumed => cases h

theorem accept_of_relocate {e : Expr} (h : out.relocate g = (Outcome.accept e).relocate f) :
    ∃ e', out = .accept e' ∧ e'.relocate g = e.relocate f := by
  cases out with
  | accept e' => exact ⟨e', rfl, Outcome.accept.inj h⟩
  | shift s | refuse cause consumed => cases h

theorem refuse_of_relocate {cause : Cause} {consumed : Bool}
    (h : out.relocate g = (Outcome.refuse cause consumed).relocate f) :
    ∃ cause', out = .refuse cause' consumed ∧ cause'.relocate g = cause.relocate f := by
  cases out with
  | refuse cause' consumed' =>
    obtain ⟨hcause, rfl⟩ := Outcome.refuse.inj h
    exact ⟨cause', rfl, hcause⟩
  | shift s | accept e => cases h

end Outcome

end Parser

end EL
