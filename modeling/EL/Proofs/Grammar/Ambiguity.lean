import EL.Proofs.Grammar.Sound

/-!
# Which choice is made does not matter for acceptance

The grammar leaves open where the tail of an operand's parentheses ends and to which operand
subscripts belong. The parser decides, and a derivation that decides otherwise passes through
states that the parser never takes. But **the parser's choice is never the wrong one for
acceptance**: the state that it takes instead `Covers` that of the derivation. It differs in two
ways only: there are more operands on the stack whose parentheses are closed, and more signs in
front of the switches that are open. Neither stands in the way of a token
(`Covers.step`), and so the one state accepts whatever the other does (`Covers.accepts`).

Trees differ, and so do depths. This is about parsers without a limit.
-/

set_option autoImplicit false

namespace EL

open EL.Parser

namespace Parser

/-- If there are signs in the one chain, there are some in the other. -/
def Chain.SignsLe (c c' : Chain) : Prop := c'.signs = [] → c.signs = []

theorem Chain.SignsLe.refl (c : Chain) : c.SignsLe c := id

theorem Chain.signsLe_fresh (b : Nat) (c : Chain) : (Chain.fresh b).SignsLe c := fun _ => rfl

/-- The same kind of list, and for a switch the signs in front of it. -/
inductive ListCovers (c c' : Chain) : Listing → Listing → Prop where
  | array {loc loc' : Location} {es es' : List Expr} :
      ListCovers c c' ⟨.array, loc, es⟩ ⟨.array, loc', es'⟩
  | index {x x' : Expr} {loc loc' : Location} {es es' : List Expr} :
      ListCovers c c' ⟨.index x, loc, es⟩ ⟨.index x', loc', es'⟩
  | switch {loc loc' : Location} {es es' : List Expr} (h : c.SignsLe c') :
      ListCovers c c' ⟨.switch, loc, es⟩ ⟨.switch, loc', es'⟩

/-- The same kind of bracket. -/
inductive BracketCovers (c c' : Chain) : Bracket → Bracket → Prop where
  | group {loc loc' : Location} (h : c.SignsLe c') :
      BracketCovers c c' (.group loc false) (.group loc' false)
  | operandGroup {loc loc' : Location} : BracketCovers c c' (.group loc true) (.group loc' true)
  | closedGroup : BracketCovers c c' .closedGroup .closedGroup
  | bareItem {l l' : Listing} (h : ListCovers c c' l l') :
      BracketCovers c c' (.item l .absent) (.item l' .absent)
  | boundedItem {l l' : Listing} {bound bound' : Bound} (h : ListCovers c c' l l')
      (hb : bound ≠ .absent) (hb' : bound' ≠ .absent) :
      BracketCovers c c' (.item l bound) (.item l' bound')
  | value {m m' : Entries} {key key' : String} : BracketCovers c c' (.value m key) (.value m' key')

/-- The same brackets, with operands put in whose parentheses are closed. -/
inductive StackCovers : List Frame → List Frame → Prop where
  | nil : StackCovers [] []
  | extra {σ σ' : List Frame} {d : Chain} (h : StackCovers σ σ') :
      StackCovers σ (⟨.closedGroup, d⟩ :: σ')
  | frame {σ σ' : List Frame} {k k' : Bracket} {c c' : Chain} (hk : BracketCovers c c' k k')
      (h : StackCovers σ σ') : StackCovers (⟨k, c⟩ :: σ) (⟨k', c'⟩ :: σ')

/-- Does the second state accept whatever the first one does? These are the ways in which it does
    that come about. -/
inductive Covers : State → State → Prop where
  | expression {c c' : Chain} {σ σ' : List Frame} (hc : c.SignsLe c') (h : StackCovers σ σ') :
      Covers ⟨.expression, c, σ⟩ ⟨.expression, c', σ'⟩
  | operand {c c' : Chain} {σ σ' : List Frame} (hc : c.SignsLe c') (h : StackCovers σ σ') :
      Covers ⟨.operand, c, σ⟩ ⟨.operand, c', σ'⟩
  | afterSimple {e e' : Expr} {c c' : Chain} {σ σ' : List Frame} (h : StackCovers σ σ') :
      Covers ⟨.afterSimple e, c, σ⟩ ⟨.afterSimple e', c', σ'⟩
  | afterOperand {e e' : Expr} {c c' : Chain} {σ σ' : List Frame} (hc : c.SignsLe c')
      (h : StackCovers σ σ') : Covers ⟨.afterOperand e, c, σ⟩ ⟨.afterOperand e', c', σ'⟩
  /-- The operand could take subscripts still, but has ended. -/
  | endedEarly {e e' : Expr} {c c' : Chain} {σ σ' : List Frame} (hc : c.signs = [])
      (h : StackCovers σ σ') : Covers ⟨.afterOperand e, c, σ⟩ ⟨.afterSimple e', c', σ'⟩
  /-- The tail of the parentheses could go on, but has ended. -/
  | leftEarly {e e' : Expr} {c c' d : Chain} {σ σ' : List Frame} (h : StackCovers σ σ') :
      Covers ⟨.afterSimple e, c, σ⟩ ⟨.afterOperand e', c', ⟨.closedGroup, d⟩ :: σ'⟩
  | firstItem {l l' : Listing} {c c' : Chain} {σ σ' : List Frame} (hl : ListCovers c c' l l')
      (h : StackCovers σ σ') : Covers ⟨.firstItem l, c, σ⟩ ⟨.firstItem l', c', σ'⟩
  | item {l l' : Listing} {c c' : Chain} {σ σ' : List Frame} (hl : ListCovers c c' l l')
      (h : StackCovers σ σ') : Covers ⟨.item l, c, σ⟩ ⟨.item l', c', σ'⟩
  | upperBound {l l' : Listing} {e e' : Expr} {loc loc' : Location} {c c' : Chain}
      {σ σ' : List Frame} (hl : ListCovers c c' l l') (h : StackCovers σ σ') :
      Covers ⟨.upperBound l e loc, c, σ⟩ ⟨.upperBound l' e' loc', c', σ'⟩
  | firstKey {m m' : Entries} {c c' : Chain} {σ σ' : List Frame} (h : StackCovers σ σ') :
      Covers ⟨.firstKey m, c, σ⟩ ⟨.firstKey m', c', σ'⟩
  | key {m m' : Entries} {c c' : Chain} {σ σ' : List Frame} (h : StackCovers σ σ') :
      Covers ⟨.key m, c, σ⟩ ⟨.key m', c', σ'⟩
  | colon {m m' : Entries} {key key' : String} {c c' : Chain} {σ σ' : List Frame}
      (h : StackCovers σ σ') : Covers ⟨.colon m key, c, σ⟩ ⟨.colon m' key', c', σ'⟩

/-- What a token does to a state, and what it does to one that covers it. An expression that has
    ended is of no use unless the text has ended too. -/
inductive OutcomeCovers (t : Token) : Outcome → Outcome → Prop where
  | shift {s s' : State} (h : Covers s s') : OutcomeCovers t (.shift s) (.shift s')
  | accept {e e' : Expr} : OutcomeCovers t (.accept e) (.accept e')
  | early {e : Expr} {out : Outcome} (h : t.kind ≠ .endOfInput) : OutcomeCovers t (.accept e) out
  | refuse {cause : Cause} {consumed : Bool} {out : Outcome} :
      OutcomeCovers t (.refuse cause consumed) out

theorem ListCovers.refl (c : Chain) : ∀ l : Listing, ListCovers c c l l
  | ⟨.array, _, _⟩ => .array
  | ⟨.index _, _, _⟩ => .index
  | ⟨.switch, _, _⟩ => .switch (.refl c)

theorem BracketCovers.refl (c : Chain) : ∀ k : Bracket, BracketCovers c c k k
  | .group _ true => .operandGroup
  | .group _ false => .group (.refl c)
  | .closedGroup => .closedGroup
  | .item l .absent => .bareItem (.refl c l)
  | .item l (.lower _ _) => .boundedItem (.refl c l) (by simp) (by simp)
  | .item l (.dots _) => .boundedItem (.refl c l) (by simp) (by simp)
  | .value _ _ => .value

theorem StackCovers.refl : ∀ σ : List Frame, StackCovers σ σ
  | [] => .nil
  | ⟨k, c⟩ :: σ => .frame (.refl c k) (.refl σ)

/-- What covers a stack covers it without the closed parentheses on top. -/
theorem StackCovers.of_closedGroup {d : Chain} {σ σ' : List Frame}
    (h : StackCovers (⟨.closedGroup, d⟩ :: σ) σ') : StackCovers σ σ' := by
  generalize hτ : (⟨.closedGroup, d⟩ : Frame) :: σ = τ at h
  induction h with
  | nil => cases hτ
  | extra _ ih => exact .extra (ih hτ)
  | frame hk h =>
    cases hτ
    cases hk
    exact .extra h

/-! ## One step -/

section
variable {t : Token} {c c' : Chain} {σ σ' : List Frame} {l l' : Listing} {e e' : Expr}

theorem ListCovers.closer (h : ListCovers c c' l l') : l'.closer = l.closer := by
  cases h <;> rfl

theorem ListCovers.add (h : ListCovers c c' l l') : ListCovers c c' (l.add e) (l'.add e') := by
  cases h with
  | array => exact .array
  | index => exact .index
  | switch h => exact .switch h

theorem covers_closeList (hl : ListCovers c c' l l') (h : StackCovers σ σ') :
    Covers (closeList l c σ) (closeList l' c' σ') := by
  cases hl with
  | array | index => exact .afterSimple h
  | switch hc =>
    obtain ⟨left, signs, base⟩ := c
    obtain ⟨left', signs', base'⟩ := c'
    cases signs' with
    | nil =>
      obtain rfl : signs = [] := hc rfl
      exact .afterOperand (.refl _) h
    | cons s signs' =>
      cases signs with
      | nil => exact .endedEarly rfl h
      | cons => exact .afterSimple h

/-- How an operand begins does not depend on what is around it. -/
theorem covers_opening {s : State} (hc : c.SignsLe c') (h : StackCovers σ σ')
    (ho : Opening c σ t s) : ∃ s', beginOperand? c' σ' t = some (.shift s') ∧ Covers s s' := by
  cases ho with
  | atom ha => exact ⟨_, beginOperand?_atom ha, .afterSimple h⟩
  | sign hop => exact ⟨_, beginOperand?_sign hop, .operand (fun hs => by cases hs) h⟩
  | parens hk =>
    refine ⟨⟨.operand, .fresh c'.depth, ⟨.group t.location true, c'⟩ :: σ'⟩, ?_, ?_⟩
    · simp [beginOperand?, hk]
    · exact .operand (Chain.signsLe_fresh _ _) (.frame .operandGroup h)
  | array hk =>
    refine ⟨⟨.firstItem ⟨.array, t.location, []⟩, c', σ'⟩, ?_, .firstItem .array h⟩
    simp [beginOperand?, hk]
  | switch hk =>
    refine ⟨⟨.firstItem ⟨.switch, t.location, []⟩, c', σ'⟩, ?_, .firstItem (.switch hc) h⟩
    simp [beginOperand?, hk]
  | map hk =>
    refine ⟨⟨.firstKey ⟨t.location, []⟩, c', σ'⟩, ?_, .firstKey h⟩
    simp [beginOperand?, hk]

theorem covers_beginOperand (hc : c.SignsLe c') (h : StackCovers σ σ') :
    OutcomeCovers t (beginOperand none c σ t) (beginOperand none c' σ' t) := by
  rw [beginOperand]
  cases hb : beginOperand? c σ t with
  | none => exact .refuse
  | some out =>
    cases out with
    | shift s =>
      obtain ⟨s', hs', hcov⟩ := covers_opening hc h (opening_of_beginOperand? hb)
      rw [beginOperand, hs']
      exact .shift hcov
    | accept e => exact absurd hb beginOperand?_ne_accept
    | refuse => exact .refuse

theorem covers_beginExpression (hc : c.SignsLe c') (h : StackCovers σ σ') :
    OutcomeCovers t (beginExpression none c σ t) (beginExpression none c' σ' t) := by
  unfold beginExpression
  split
  · exact .shift (.operand (Chain.signsLe_fresh _ _) (.frame (.group hc) h))
  · exact covers_beginOperand hc h

theorem covers_beginItem (hl : ListCovers c c' l l') (h : StackCovers σ σ') :
    OutcomeCovers t (beginItem none l c σ t) (beginItem none l' c' σ' t) := by
  have hbare : OutcomeCovers t
      (beginExpression none (.fresh c.depth) (⟨.item l .absent, c⟩ :: σ) t)
      (beginExpression none (.fresh c'.depth) (⟨.item l' .absent, c'⟩ :: σ') t) :=
    covers_beginExpression (Chain.signsLe_fresh _ _) (.frame (.bareItem hl) h)
  by_cases ht : t.kind = .range
  · unfold beginItem
    rw [ht]
    cases hl with
    | index =>
      refine .shift (.expression (Chain.signsLe_fresh _ _) (.frame ?_ h))
      exact .boundedItem .index (by simp) (by simp)
    | array | switch => exact hbare
  · have hs : ∀ (l : Listing) (c : Chain) (σ : List Frame), beginItem none l c σ t =
        beginExpression none (.fresh c.depth) (⟨.item l .absent, c⟩ :: σ) t :=
      fun _ _ _ => step_item ht
    rw [hs, hs]
    exact hbare

theorem covers_separate (hl : ListCovers c c' l l') (h : StackCovers σ σ') :
    OutcomeCovers t (separate l c σ t) (separate l' c' σ' t) := by
  unfold separate
  rw [hl.closer]
  split
  · exact .shift (.item hl h)
  · split
    · exact .shift (covers_closeList hl h)
    · exact .refuse

theorem covers_endItem {bound bound' : Bound} (hb : BracketCovers c c' (.item l bound) (.item l' bound'))
    (h : StackCovers σ σ') :
    OutcomeCovers t (endItem l bound e c σ t) (endItem l' bound' e' c' σ' t) := by
  by_cases ht : t.kind = .range ∧ bound = .absent
  · obtain ⟨hr, rfl⟩ := ht
    unfold endItem
    rw [hr]
    cases hb with
    | bareItem hl =>
      cases hl with
      | array =>
        refine .shift (.expression (Chain.signsLe_fresh _ _) (.frame ?_ h))
        exact .boundedItem .array (by simp) (by simp)
      | index => exact .shift (.upperBound .index h)
      | switch hc => exact covers_separate (.switch hc) h
    | boundedItem _ hb => exact absurd rfl hb
  · rw [endItem_eq_separate ht]
    cases hb with
    | bareItem hl =>
      rw [endItem_eq_separate ht]
      exact covers_separate hl.add h
    | boundedItem hl hb hb' =>
      rw [endItem_eq_separate fun hn => hb' hn.2]
      exact covers_separate hl.add h

theorem covers_readKey {m m' : Entries} (h : StackCovers σ σ') :
    OutcomeCovers t (readKey m c σ t) (readKey m' c' σ' t) := by
  unfold readKey
  split
  · exact .shift (.colon h)
  · exact .shift (.colon h)
  · exact .refuse

theorem covers_endValue {m m' : Entries} {key key' : String} (h : StackCovers σ σ') :
    OutcomeCovers t (endValue m key e c σ t) (endValue m' key' e' c' σ' t) := by
  unfold endValue
  dsimp only
  split
  · exact .shift (.key h)
  · exact .shift (.afterSimple h)
  · exact .refuse

theorem covers_closeGroup {loc loc' : Location} {asOperand : Bool}
    (hb : BracketCovers c c' (.group loc asOperand) (.group loc' asOperand)) (h : StackCovers σ σ') :
    Covers (closeGroup loc asOperand e c σ) (closeGroup loc' asOperand e' c' σ') := by
  cases hb with
  | group hc => exact .afterOperand hc h
  | operandGroup => exact .afterOperand (.refl _) (.frame .closedGroup h)

/-- A bracket that opens a subscript belongs to the chain around closed parentheses, or to none. -/
theorem covers_leave_openBracket (ht : t.kind = .openBracket) {d : Chain} :
    ∀ {σ σ' : List Frame} {e e' : Expr}, StackCovers σ σ' →
      OutcomeCovers t (leave t e σ) (openIndex e' d σ' t)
  | [], _, _, _, _ => .early (by rw [ht]; decide)
  | ⟨.closedGroup, outer⟩ :: σ, σ', e, e', h => by
    rw [leave, if_pos ht]
    exact .shift (.firstItem .index h.of_closedGroup)
  | ⟨.group loc asOperand, outer⟩ :: σ, _, _, _, _ => by
    rw [leave, if_neg (by rw [ht]; decide)]
    exact .refuse
  | ⟨.item l bound, outer⟩ :: σ, _, e, _, _ => by
    have hk : t.kind ≠ (l.add (bound.complete e)).closer := by
      rw [ht]
      unfold Listing.closer
      split <;> decide
    rw [leave, endItem_eq_separate (by simp [ht]), separate, if_neg (by simp [ht]), if_neg hk]
    exact .refuse
  | ⟨.value m key, outer⟩ :: σ, _, _, _, _ => by
    rw [leave, endValue, ht]
    exact .refuse

/-- What leaves a chain leaves it just so if more parentheses are closed around it. -/
theorem covers_leave (h : StackCovers σ σ') :
    ∀ e e', OutcomeCovers t (leave t e σ) (leave t e' σ') := by
  induction h with
  | nil => exact fun _ _ => .accept
  | @extra σ σ' d h ih =>
    intro e e'
    rw [leave.eq_def t e' (_ :: _)]
    dsimp only
    split
    · exact covers_leave_openBracket ‹_› h
    · exact ih e _
  | frame hk h ih =>
    intro e e'
    cases hk with
    | closedGroup =>
      simp only [leave]
      split
      · exact .shift (.firstItem .index h)
      · exact ih _ _
    | group hc =>
      simp only [leave]
      split
      · exact .shift (covers_closeGroup (.group hc) h)
      · exact .refuse
    | operandGroup =>
      simp only [leave]
      split
      · exact .shift (covers_closeGroup .operandGroup h)
      · exact .refuse
    | bareItem hl =>
      simp only [leave]
      exact covers_endItem (.bareItem hl) h
    | boundedItem hl hb hb' =>
      simp only [leave]
      exact covers_endItem (.boundedItem hl hb hb') h
    | value =>
      simp only [leave]
      exact covers_endValue h

theorem covers_afterOperand (hc : c.SignsLe c') (h : StackCovers σ σ') :
    OutcomeCovers t (afterOperand e c σ t) (afterOperand e' c' σ' t) := by
  unfold afterOperand
  split
  · exact .shift (.operand hc h)
  · exact covers_leave h e e'

theorem covers_afterSimple (h : StackCovers σ σ') :
    OutcomeCovers t (afterSimple e c σ t) (afterSimple e' c' σ' t) := by
  unfold afterSimple
  split
  · exact .shift (.firstItem .index h)
  · exact covers_afterOperand (.refl _) h

/-- An operand that has ended, and one that has not. -/
theorem covers_endedEarly (hc : c.signs = []) (h : StackCovers σ σ') :
    OutcomeCovers t (afterOperand e c σ t) (afterSimple e' c' σ' t) := by
  unfold afterSimple
  split
  · rename_i ht
    rw [afterOperand, ht]
    exact covers_leave_openBracket ht h
  · exact covers_afterOperand (fun _ => hc) h

/-- Parentheses whose tail has ended, and some whose tail has not. -/
theorem covers_leftEarly {d : Chain} (h : StackCovers σ σ') :
    OutcomeCovers t (afterSimple e c σ t) (afterOperand e' c' (⟨.closedGroup, d⟩ :: σ') t) := by
  unfold afterSimple
  split
  · rename_i ht
    have hop : BinaryOp.ofKind? t.kind = none := by rw [ht]; decide
    rw [afterOperand, hop]
    simp only [leave, if_pos ht]
    exact .shift (.firstItem .index h)
  · exact covers_afterOperand (Chain.signsLe_fresh _ _) h.extra

theorem covers_firstItem (hl : ListCovers c c' l l') (h : StackCovers σ σ') :
    OutcomeCovers t (step none ⟨.firstItem l, c, σ⟩ t) (step none ⟨.firstItem l', c', σ'⟩ t) := by
  simp only [step, hl.closer]
  split
  · exact .shift (covers_closeList hl h)
  · cases hl with
    | array => exact covers_beginItem .array h
    | index => exact covers_beginItem .index h
    | switch hc =>
      dsimp only
      split
      · exact covers_beginItem (.switch hc) h
      · exact .refuse

theorem covers_upperBound {loc loc' : Location} (hl : ListCovers c c' l l')
    (h : StackCovers σ σ') :
    OutcomeCovers t (step none ⟨.upperBound l e loc, c, σ⟩ t)
      (step none ⟨.upperBound l' e' loc', c', σ'⟩ t) := by
  simp only [step]
  split
  · refine covers_beginExpression (Chain.signsLe_fresh _ _) (.frame ?_ h)
    exact .boundedItem hl (by simp) (by simp)
  · exact covers_separate hl.add h

end

/-- **One step keeps a state covered.** -/
theorem Covers.step {s s' : State} (t : Token) (h : Covers s s') :
    OutcomeCovers t (step none s t) (step none s' t) := by
  cases h with
  | expression hc h => exact covers_beginExpression hc h
  | operand hc h => exact covers_beginOperand hc h
  | afterSimple h => exact covers_afterSimple h
  | afterOperand hc h => exact covers_afterOperand hc h
  | endedEarly hc h => exact covers_endedEarly hc h
  | leftEarly h => exact covers_leftEarly h
  | firstItem hl h => exact covers_firstItem hl h
  | item hl h => exact covers_beginItem hl h
  | upperBound hl h => exact covers_upperBound hl h
  | firstKey h =>
    simp only [Parser.step]
    split
    · exact .shift (.afterSimple h)
    · exact covers_readKey h
  | key h => exact covers_readKey h
  | colon h =>
    simp only [Parser.step]
    split
    · exact .shift (.expression (Chain.signsLe_fresh _ _) (.frame .value h))
    · exact .refuse

/-- **What covers a state accepts whatever the state accepts.** -/
theorem Covers.accepts {s s' : State} (h : Covers s s') {ts : List Token}
    (ha : (read? none s ts).isSome) : (read? none s' ts).isSome := by
  induction ts generalizing s s' with
  | nil => cases ha
  | cons t ts ih =>
    have hstep := h.step t
    rw [read?] at ha ⊢
    generalize Parser.step none s t = out, Parser.step none s' t = out' at hstep ha
    cases hstep with
    | shift h => exact ih h ha
    | accept => split at ha <;> simp_all
    | early hk => simp [hk] at ha
    | refuse => cases ha

end Parser

end EL
