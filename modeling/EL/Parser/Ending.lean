import EL.Parser.Step

/-!
# The end of input ends every parse

No construct of EL is closed by the end of the text, so there is **no state that shifts the end of
input** (`isFinal_step`): a parser that sees it accepts what it has or refuses. This is what makes a
run as long as its stream and no longer. Each part of a step has a lemma of its own here, since
each of them looks at the token for itself.
-/

set_option autoImplicit false

namespace EL.Parser

/-- Is this an outcome that leads on to no other state? -/
def Outcome.isFinal : Outcome → Bool
  | .shift _ => false
  | _ => true

theorem Listing.closer_ne_endOfInput (l : Listing) : l.closer ≠ .endOfInput := by
  unfold Listing.closer
  split <;> decide

theorem isFinal_need (set : TokenSet) (t : Token) (b : Bool) : (need set t b).isFinal = true := rfl

section
variable {t : Token} (ht : t.kind = .endOfInput)
include ht

theorem isFinal_separate (l : Listing) (c : Chain) (σ : List Frame) :
    (separate l c σ t).isFinal = true := by
  have hc := l.closer_ne_endOfInput
  rw [separate, if_neg (by simp [ht]), if_neg (by rw [ht]; exact hc.symm)]
  rfl

theorem isFinal_beginOperand (limit : Option Nat) (c : Chain) (σ : List Frame) :
    (beginOperand limit c σ t).isFinal = true := by
  simp [beginOperand, beginOperand?, ht, UnaryOp.ofKind?, isFinal_need]

theorem isFinal_beginExpression (limit : Option Nat) (c : Chain) (σ : List Frame) :
    (beginExpression limit c σ t).isFinal = true := by
  rw [beginExpression, if_neg (by simp [ht])]
  exact isFinal_beginOperand ht limit c σ

theorem isFinal_beginItem (limit : Option Nat) (l : Listing) (c : Chain) (σ : List Frame) :
    (beginItem limit l c σ t).isFinal = true := by
  rw [beginItem]
  split
  · rename_i h _
    exact absurd (ht.symm.trans h) (by decide)
  · exact isFinal_beginExpression ht limit _ _

theorem isFinal_readKey (m : Entries) (c : Chain) (σ : List Frame) :
    (readKey m c σ t).isFinal = true := by
  simp [readKey, ht, isFinal_need]

theorem isFinal_leave : ∀ (σ : List Frame) (e : Expr), (leave t e σ).isFinal = true
  | [], _ => rfl
  | ⟨.closedGroup, outer⟩ :: σ, e => by
    rw [leave, if_neg (by simp [ht])]
    exact isFinal_leave σ (outer.complete e)
  | ⟨.group _ _, _⟩ :: _, _ => by
    rw [leave, if_neg (by simp [ht])]
    rfl
  | ⟨.item l bound, outer⟩ :: σ, e => by
    rw [leave]
    unfold endItem
    split
    · rename_i h _
      exact absurd (ht.symm.trans h) (by decide)
    · rename_i h _
      exact absurd (ht.symm.trans h) (by decide)
    · exact isFinal_separate ht _ _ _
  | ⟨.value _ _, _⟩ :: _, _ => by simp [leave, endValue, ht, isFinal_need]

theorem isFinal_afterOperand (e : Expr) (c : Chain) (σ : List Frame) :
    (afterOperand e c σ t).isFinal = true := by
  have h : BinaryOp.ofKind? t.kind = none := by rw [ht]; decide
  rw [afterOperand, h]
  exact isFinal_leave ht σ e

/-- **No state shifts the end of input**, so every run ends there at the latest. -/
theorem isFinal_step (limit : Option Nat) (s : State) : (step limit s t).isFinal = true := by
  rw [step]
  split
  · exact isFinal_beginExpression ht limit _ _
  · exact isFinal_beginOperand ht limit _ _
  · rw [afterSimple, if_neg (by simp [ht])]
    exact isFinal_afterOperand ht _ _ _
  · exact isFinal_afterOperand ht _ _ _
  · rename_i l _
    rw [if_neg (by rw [ht]; exact l.closer_ne_endOfInput.symm)]
    split
    · split
      · exact isFinal_beginItem ht limit _ _ _
      · rfl
    · exact isFinal_beginItem ht limit _ _ _
  · exact isFinal_beginItem ht limit _ _ _
  · rw [if_neg (by rw [ht]; decide)]
    exact isFinal_separate ht _ _ _
  · rw [if_neg (by simp [ht])]
    exact isFinal_readKey ht _ _ _
  · exact isFinal_readKey ht _ _ _
  · rw [if_neg (by simp [ht])]
    rfl

end
end EL.Parser
