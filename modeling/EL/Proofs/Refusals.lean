import EL.Proofs.Grammar.Sound

/-!
# What a refusal says

Without a limit on the depth, a token is refused for one of two reasons. It is of a kind that is not
wanted, or it is a number that is too large. In the first case the refusal names the kinds that were
wanted, and **a token of each of these would have been shifted in the place of the one that was
refused** (`explains_step`). So what a message lists is what the parser would have gone on with.

A step is put together from parts that look at the token one after the other. Where a part only shifts
some tokens more than the next one does, what the next one says still holds (`Explains.shifting`).
-/

set_option autoImplicit false

namespace EL

/-- A token that can be part of an expression: if it is a number, a finite one. -/
def Token.Usable (t : Token) : Prop :=
  t.kind = .number → ∃ s m, Number.ofLiteral? t.text.toList = some (.finite s m)

namespace Parser

/-- Why a part of a step refused the token. -/
inductive Refusal (f : Token → Outcome) (t : Token) : Cause → Prop where
  | unwanted {S : TokenSet} (ht : t.kind ∉ S) (hne : ∃ k, k ∈ S)
      (hS : ∀ u, u.kind ∈ S → u.Usable → ∃ s, f u = .shift s) : Refusal f t (.expected S t)
  | number (ht : t.kind = .number) (hn : ¬ t.Usable) : Refusal f t (.malformedNumber t.text)

/-- A part of a step that gives the reason why it refuses a token. -/
def Explains (f : Token → Outcome) : Prop :=
  ∀ t cause consumed, f t = .refuse cause consumed → Refusal f t cause

/-- A part of a step that wants tokens of the kinds in `S`, whatever it is told of others. -/
structure Wants (S : TokenSet) (f : Token → Outcome) : Prop where
  shift : ∀ u, u.kind ∈ S → u.Usable → ∃ s, f u = .shift s
  refuse : ∀ t cause consumed, f t = .refuse cause consumed →
    (t.kind ∉ S ∧ cause = .expected S t) ∨
      (t.kind = .number ∧ ¬ t.Usable ∧ cause = .malformedNumber t.text)

section
variable {f g : Token → Outcome} {S : TokenSet}

theorem Wants.explains (hf : Wants S f) (hne : ∃ k, k ∈ S) : Explains f := by
  intro t cause consumed h
  rcases hf.refuse t cause consumed h with ⟨ht, rfl⟩ | ⟨ht, hn, rfl⟩
  · exact .unwanted ht hne hf.shift
  · exact .number ht hn

/-- What is wanted is refused only if it is a number of no use. -/
theorem Wants.refuse_mem (hf : Wants S f) {t : Token} {cause : Cause} {consumed : Bool}
    (ht : t.kind ∈ S) (h : f t = .refuse cause consumed) :
    t.kind = .number ∧ ¬ t.Usable ∧ cause = .malformedNumber t.text := by
  rcases hf.refuse t cause consumed h with ⟨hn, -⟩ | hn
  · exact absurd ht hn
  · exact hn

/-- Tokens of some kinds are shifted, and all others are refused. -/
theorem Wants.of_need (hshift : ∀ u, u.kind ∈ S → ∃ s, f u = .shift s)
    (hrefuse : ∀ u, u.kind ∉ S → f u = need S u true) : Wants S f where
  shift u hu _ := hshift u hu
  refuse t cause consumed h := by
    by_cases ht : t.kind ∈ S
    · obtain ⟨s, hs⟩ := hshift t ht
      rw [hs] at h
      cases h
    · rw [hrefuse t ht] at h
      cases h
      exact .inl ⟨ht, rfl⟩

/-- An outcome that gives way to a shift under some condition. -/
theorem eq_or_shift (p : Prop) [Decidable p] (s : State) (out : Outcome) :
    (if p then .shift s else out) = out ∨ ∃ s', (if p then .shift s else out) = .shift s' := by
  split
  · exact .inr ⟨s, rfl⟩
  · exact .inl rfl

theorem Wants.shifting (hf : Wants S f) (h : ∀ t, g t = f t ∨ ∃ s, g t = .shift s) :
    Wants S g where
  shift u hu hu' := by
    rcases h u with heq | hs
    · rw [heq]
      exact hf.shift u hu hu'
    · exact hs
  refuse t cause consumed hg := by
    rcases h t with heq | ⟨s, hs⟩
    · rw [heq] at hg
      exact hf.refuse t cause consumed hg
    · rw [hs] at hg
      cases hg

theorem Explains.shifting (hf : Explains f) (h : ∀ t, g t = f t ∨ ∃ s, g t = .shift s) :
    Explains g := by
  intro t cause consumed hg
  rcases h t with heq | ⟨s, hs⟩
  · rw [heq] at hg
    cases hf t cause consumed hg with
    | number ht hn => exact .number ht hn
    | unwanted ht hne hS =>
      refine .unwanted ht hne ?_
      intro u hu hu'
      rcases h u with heq | hs
      · rw [heq]
        exact hS u hu hu'
      · exact hs
  · rw [hs] at hg
    cases hg

end

/-! ## Where an operand begins -/

theorem beginOperand?_refuse {t : Token} {c : Chain} {σ : List Frame} {cause : Cause}
    {consumed : Bool} (h : beginOperand? c σ t = some (.refuse cause consumed)) :
    t.kind = .number ∧ ¬ t.Usable ∧ cause = .malformedNumber t.text := by
  unfold beginOperand? at h
  split at h
  case h_3 hk =>
    split at h
    · cases h
    · rename_i hn
      cases h
      refine ⟨hk, ?_, rfl⟩
      intro hu
      obtain ⟨s, m, hfinite⟩ := hu hk
      exact hn s m hfinite
  case h_10 =>
    obtain ⟨op, -, hs⟩ := Option.map_eq_some_iff.mp h
    cases hs
  all_goals cases h

theorem wants_beginOperand (c : Chain) (σ : List Frame) : Wants .operand (beginOperand none c σ) where
  shift u hu hu' := by
    obtain ⟨out, hout⟩ : ∃ out, beginOperand? c σ u = some out :=
      Option.ne_none_iff_exists'.mp fun hnone => beginOperand?_eq_none_iff.mp hnone hu
    cases out with
    | shift s => exact ⟨s, by simp [beginOperand, hout]⟩
    | accept e => exact absurd hout beginOperand?_ne_accept
    | refuse cause consumed => exact absurd hu' (beginOperand?_refuse hout).2.1
  refuse t cause consumed h := by
    unfold beginOperand at h
    split at h
    · rename_i hnone
      cases h
      exact .inl ⟨beginOperand?_eq_none_iff.mp hnone, rfl⟩
    · rename_i out hout
      subst h
      exact .inr (beginOperand?_refuse hout)

theorem wants_beginExpression (c : Chain) (σ : List Frame) :
    Wants .operand (beginExpression none c σ) := by
  apply (wants_beginOperand c σ).shifting
  intro t
  exact eq_or_shift _ _ _

theorem wants_beginItem (l : Listing) (c : Chain) (σ : List Frame) :
    Wants .operand (beginItem none l c σ) := by
  apply (wants_beginExpression (.fresh c.depth) (⟨.item l .absent, c⟩ :: σ)).shifting
  intro t
  unfold beginItem
  split
  · exact .inr ⟨_, rfl⟩
  · exact .inl rfl

theorem exists_mem_operand : ∃ k, k ∈ TokenSet.operand := ⟨.name, by decide⟩

/-! ## In brackets -/

theorem wants_separate (l : Listing) (c : Chain) (σ : List Frame) :
    Wants {.comma, l.closer} (separate l c σ) := by
  apply Wants.of_need
  · intro u hu
    rcases TokenSet.mem_insert.mp hu with hcomma | hcloser
    · exact ⟨_, separate_comma hcomma⟩
    · exact ⟨_, separate_closer (TokenSet.mem_singleton.mp hcloser)⟩
  · intro u hu
    simp only [TokenSet.mem_insert, TokenSet.mem_singleton, not_or] at hu
    rw [separate, if_neg hu.1, if_neg hu.2]

theorem explains_endItem (l : Listing) (bound : Bound) (e : Expr) (c : Chain) (σ : List Frame) :
    Explains (endItem l bound e c σ) := by
  have hseparate := wants_separate (l.add (bound.complete e)) c σ
  apply (hseparate.explains ⟨.comma, by simp⟩).shifting
  intro t
  unfold endItem
  split
  · exact .inr ⟨_, rfl⟩
  · exact .inr ⟨_, rfl⟩
  · exact .inl rfl

theorem wants_readKey (m : Entries) (c : Chain) (σ : List Frame) :
    Wants {.name, .string} (readKey m c σ) := by
  apply Wants.of_need
  · intro u hu
    simp only [TokenSet.mem_insert, TokenSet.mem_singleton] at hu
    rcases hu with hu | hu <;> exact ⟨_, by rw [readKey, hu]⟩
  · intro u hu
    simp only [TokenSet.mem_insert, TokenSet.mem_singleton, not_or] at hu
    exact readKey_refuse hu.1 hu.2

theorem wants_endValue (m : Entries) (key : String) (e : Expr) (c : Chain) (σ : List Frame) :
    Wants {.comma, .closeBrace} (endValue m key e c σ) := by
  apply Wants.of_need
  · intro u hu
    simp only [TokenSet.mem_insert, TokenSet.mem_singleton] at hu
    rcases hu with hu | hu <;> exact ⟨_, by rw [endValue, hu]⟩
  · intro u hu
    simp only [TokenSet.mem_insert, TokenSet.mem_singleton, not_or] at hu
    exact endValue_refuse hu.1 hu.2

/-! ## Where an operand ends -/

theorem explains_leave : ∀ (σ : List Frame) (e : Expr), Explains fun t => leave t e σ
  | [], e => by
    intro t cause consumed h
    cases h
  | ⟨.closedGroup, outer⟩ :: σ, e => by
    apply (explains_leave σ (outer.complete e)).shifting
    intro t
    rw [leave]
    exact eq_or_shift _ _ _
  | ⟨.group loc asOperand, outer⟩ :: σ, e => by
    refine Wants.explains (S := {.closeParen}) ?_ ⟨.closeParen, by simp⟩
    apply Wants.of_need
    · intro u hu
      exact ⟨_, by rw [leave, if_pos (TokenSet.mem_singleton.mp hu)]⟩
    · intro u hu
      rw [TokenSet.mem_singleton] at hu
      rw [leave, if_neg hu]
  | ⟨.item l bound, outer⟩ :: σ, e => explains_endItem l bound e outer σ
  | ⟨.value m key, outer⟩ :: σ, e => (wants_endValue m key e outer σ).explains ⟨.comma, by simp⟩

theorem explains_afterOperand (e : Expr) (c : Chain) (σ : List Frame) :
    Explains (afterOperand e c σ) := by
  apply (explains_leave σ e).shifting
  intro t
  unfold afterOperand
  split
  · exact .inr ⟨_, rfl⟩
  · exact .inl rfl

theorem explains_afterSimple (e : Expr) (c : Chain) (σ : List Frame) :
    Explains (afterSimple e c σ) := by
  apply (explains_afterOperand (c.complete e) (.fresh c.base) σ).shifting
  intro t
  exact eq_or_shift _ _ _

/-! ## All steps -/

/-- The first branch of a switch is no switch, so a switch is not wanted there. -/
theorem wants_firstBranch {l : Listing} (hl : l.shape = .switch) (c : Chain) (σ : List Frame) :
    Wants (.simpleTerm ∪ {.closeSwitch}) (step none ⟨.firstItem l, c, σ⟩) where
  shift u hu hu' := by
    have hcloser : l.closer = .closeSwitch := by rw [Listing.closer, hl]
    simp only [step, hcloser, hl]
    by_cases huc : u.kind = .closeSwitch
    · rw [if_pos huc]
      exact ⟨_, rfl⟩
    · have hsimple : u.kind ∈ TokenSet.simpleTerm := by simpa [huc] using hu
      rw [if_neg huc, if_pos hsimple]
      exact (wants_beginItem l c σ).shift u (Grammar.mem_operand_of_simpleTerm hsimple) hu'
  refuse t cause consumed h := by
    have hcloser : l.closer = .closeSwitch := by rw [Listing.closer, hl]
    simp only [step, hcloser, hl] at h
    split at h
    · cases h
    · rename_i htc
      split at h
      · rename_i ht
        exact .inr ((wants_beginItem l c σ).refuse_mem (Grammar.mem_operand_of_simpleTerm ht) h)
      · rename_i ht
        cases h
        exact .inl ⟨by simp [ht, htc], rfl⟩

theorem explains_firstItem (l : Listing) (c : Chain) (σ : List Frame) :
    Explains (step none ⟨.firstItem l, c, σ⟩) := by
  have hitem := wants_beginItem l c σ
  obtain ⟨shape, loc, done⟩ := l
  cases shape with
  | switch => exact (wants_firstBranch rfl c σ).explains ⟨.closeSwitch, by simp⟩
  | array | index =>
    refine (hitem.shifting ?_).explains exists_mem_operand
    intro t
    exact eq_or_shift _ _ _

theorem wants_upperBound (l : Listing) (e : Expr) (loc : Location) (c : Chain) (σ : List Frame) :
    Wants {.comma, l.closer} (step none ⟨.upperBound l e loc, c, σ⟩) where
  shift u hu hu' := by
    have hends : u.kind = .comma ∨ u.kind = l.shape.closer := by
      simp only [TokenSet.mem_insert, TokenSet.mem_singleton] at hu
      exact hu
    rw [step_upperBound hends]
    exact (wants_separate (l.add (.unary .leftBoundedRange e loc)) c σ).shift u hu hu'
  refuse t cause consumed h := by
    simp only [step] at h
    split at h
    · rename_i ht
      have hbegin := wants_beginExpression (.fresh c.depth) (⟨.item l (.lower e loc), c⟩ :: σ)
      exact .inr (hbegin.refuse_mem (Grammar.mem_operand_of_simpleTerm ht) h)
    · exact (wants_separate (l.add (.unary .leftBoundedRange e loc)) c σ).refuse t cause consumed h

/-- **What is said to be wanted would have been shifted.** -/
theorem explains_step (s : State) : Explains (step none s) := by
  obtain ⟨goal, c, σ⟩ := s
  cases goal with
  | expression => exact (wants_beginExpression c σ).explains exists_mem_operand
  | operand => exact (wants_beginOperand c σ).explains exists_mem_operand
  | afterSimple e => exact explains_afterSimple e c σ
  | afterOperand e => exact explains_afterOperand e c σ
  | firstItem l => exact explains_firstItem l c σ
  | item l => exact (wants_beginItem l c σ).explains exists_mem_operand
  | upperBound l e loc => exact (wants_upperBound l e loc c σ).explains ⟨.comma, by simp⟩
  | firstKey m =>
    apply ((wants_readKey m c σ).explains ⟨.name, by simp⟩).shifting
    intro t
    exact eq_or_shift _ _ _
  | key m => exact (wants_readKey m c σ).explains ⟨.name, by simp⟩
  | colon m key =>
    refine Wants.explains (S := {.colon}) ?_ ⟨.colon, by simp⟩
    apply Wants.of_need
    · intro u hu
      exact ⟨_, step_colon (TokenSet.mem_singleton.mp hu)⟩
    · intro u hu
      rw [TokenSet.mem_singleton] at hu
      simp only [step, if_neg hu]

end Parser

end EL
