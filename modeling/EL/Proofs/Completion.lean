import EL.Proofs.Grammar.Runs
import EL.Proofs.Places
import EL.Proofs.Spelling

/-!
# Every state can be completed

Whatever has been read, there is a way to go on that ends in an expression: read what is due next, a
name where an operand is, and then close the open brackets, the innermost first. `State.completion`
lists the kinds of the tokens that this takes, and **any tokens of these kinds will do**
(`completes`). So no state is a dead end, and a parser that has not refused a token yet has read the
beginning of an expression.
-/

set_option autoImplicit false

namespace EL

namespace Parser

/-! ## What is still to be read -/

/-- The kinds of the tokens that close the open brackets. -/
def closers : List Frame → List Kind
  | [] => []
  | ⟨.closedGroup, _⟩ :: σ => closers σ
  | ⟨.group _ _, _⟩ :: σ => .closeParen :: closers σ
  | ⟨.item l _, _⟩ :: σ => l.closer :: closers σ
  | ⟨.value _ _, _⟩ :: σ => .closeBrace :: closers σ

/-- The kinds of tokens that a goal can do with. -/
def Goal.completion : Goal → List Kind
  | .expression | .operand => [.name]
  | .afterSimple _ | .afterOperand _ => []
  | .firstItem l | .upperBound l _ _ => [l.closer]
  | .item l => [.name, l.closer]
  | .firstKey _ => [.closeBrace]
  | .key _ => [.name, .colon, .name, .closeBrace]
  | .colon _ _ => [.colon, .name, .closeBrace]

/-- The kinds of tokens that complete an expression. -/
def State.completion (s : State) : List Kind := s.goal.completion ++ closers s.stack

theorem Listing.closer_cases (l : Listing) : l.closer = .closeBracket ∨ l.closer = .closeSwitch := by
  unfold Listing.closer
  split <;> simp

theorem ne_endOfInput_of_mem_closers : ∀ σ : List Frame, ∀ k ∈ closers σ, k ≠ .endOfInput
  | [] => by
    intro k hk
    cases hk
  | ⟨.closedGroup, _⟩ :: σ => ne_endOfInput_of_mem_closers σ
  | ⟨.group _ _, _⟩ :: σ | ⟨.value _ _, _⟩ :: σ => by
    rw [closers, List.forall_mem_cons]
    exact ⟨by decide, ne_endOfInput_of_mem_closers σ⟩
  | ⟨.item l _, _⟩ :: σ => by
    rw [closers, List.forall_mem_cons]
    exact ⟨l.closer_ne_endOfInput, ne_endOfInput_of_mem_closers σ⟩

theorem Goal.ne_endOfInput_of_mem_completion {g : Goal} {k : Kind} (h : k ∈ g.completion) :
    k ≠ .endOfInput := by
  rintro rfl
  cases g with
  | firstItem l | upperBound l =>
    exact l.closer_ne_endOfInput (List.mem_singleton.mp h).symm
  | item l =>
    rcases List.mem_cons.mp h with h | h
    · cases h
    · exact l.closer_ne_endOfInput (List.mem_singleton.mp h).symm
  | _ => simp [completion] at h

theorem ne_endOfInput_of_mem_completion {s : State} {k : Kind} (h : k ∈ s.completion) :
    k ≠ .endOfInput := by
  rcases List.mem_append.mp h with h | h
  · exact Goal.ne_endOfInput_of_mem_completion h
  · exact ne_endOfInput_of_mem_closers s.stack k h

/-- Tokens of these kinds, and then the end of input, are read as an expression. -/
def Completes (s : State) (ks : List Kind) : Prop :=
  ∀ us stop, us.map Token.kind = ks → stop.kind = .endOfInput →
    ∃ e, read? none s (us ++ [stop]) = some e

theorem Completes.cons {s : State} {k : Kind} {ks : List Kind}
    (h : ∀ t, t.kind = k → ∃ s', step none s t = .shift s' ∧ Completes s' ks) :
    Completes s (k :: ks) := by
  intro us stop hus hstop
  obtain ⟨t, us, rfl, ht, hus⟩ := List.map_eq_cons_iff.mp hus
  obtain ⟨s', hs, hrest⟩ := h t ht
  obtain ⟨e, he⟩ := hrest us stop hus hstop
  exact ⟨e, by rw [List.cons_append, read?_shift hs, he]⟩

/-! ## Where nothing is due but closing brackets -/

/-- A token that continues no operand ends an expression and meets the bracket around it. -/
def Over (s : State) (σ : List Frame) : Prop :=
  ∃ e, ∀ t, BinaryOp.ofKind? t.kind = none → t.kind ≠ .openBracket → step none s t = leave t e σ

section
variable {c : Chain} {σ : List Frame} {e : Expr} {t : Token}

theorem over_afterOperand : Over ⟨.afterOperand e, c, σ⟩ σ := by
  refine ⟨e, ?_⟩
  intro t hop _
  exact step_leave hop

theorem over_afterSimple : Over ⟨.afterSimple e, c, σ⟩ σ := by
  refine ⟨c.complete e, ?_⟩
  intro t hop hbracket
  simp [step, afterSimple, hbracket, afterOperand, hop]

theorem over_closeList (l : Listing) (c : Chain) (σ : List Frame) : Over (closeList l c σ) σ := by
  obtain ⟨shape, loc, done⟩ := l
  cases shape with
  | array | index => exact over_afterSimple
  | switch =>
    rw [closeList_switch]
    obtain ⟨e, he⟩ : Over ⟨.afterSimple (.switch done.reverse loc), c, σ⟩ σ := over_afterSimple
    refine ⟨e, ?_⟩
    intro t hop hbracket
    rw [step_resume hbracket]
    exact he t hop hbracket

theorem over_closeGroup (loc : Location) (asOperand : Bool) (e : Expr) (c : Chain)
    (σ : List Frame) : Over (closeGroup loc asOperand e c σ) σ := by
  cases asOperand with
  | false => exact over_afterOperand
  | true =>
    obtain ⟨e', he'⟩ : Over ⟨.afterSimple (.unary .group e loc), c, σ⟩ σ := over_afterSimple
    refine ⟨e', ?_⟩
    intro t hop hbracket
    show step none ⟨.afterOperand (.unary .group e loc), .fresh c.depth, _⟩ t = _
    rw [step_closedGroup hop]
    exact he' t hop hbracket

/-- What closes a list continues no operand. -/
theorem leave_closer {l : Listing} {bound : Bound} (ht : t.kind = l.closer) :
    BinaryOp.ofKind? t.kind = none ∧ t.kind ≠ .openBracket ∧
      leave t e (⟨.item l bound, c⟩ :: σ) = .shift (closeList (l.add (bound.complete e)) c σ) := by
  have hkind : t.kind = .closeBracket ∨ t.kind = .closeSwitch := by
    rw [ht]
    exact l.closer_cases
  have hrange : t.kind ≠ .range := by rcases hkind with hk | hk <;> simp [hk]
  refine ⟨?_, ?_, ?_⟩
  · rcases hkind with hk | hk <;> rw [hk] <;> rfl
  · rcases hkind with hk | hk <;> simp [hk]
  · rw [leave, endItem_eq_separate fun h => hrange h.1]
    exact separate_closer ht

/-- **What is over is completed by closing the brackets around it.** -/
theorem completes_of_over : ∀ (σ : List Frame) {s : State}, Over s σ → Completes s (closers σ)
  | [], s, ⟨e, h⟩ => by
    intro us stop hus hstop
    obtain rfl := List.map_eq_nil_iff.mp hus
    have hs : step none s stop = .accept e := h stop (by rw [hstop]; rfl) (by simp [hstop])
    exact ⟨e, by simp [read?, hs, hstop]⟩
  | ⟨.closedGroup, outer⟩ :: σ, s, ⟨e, h⟩ => by
    apply completes_of_over σ
    refine ⟨outer.complete e, ?_⟩
    intro t hop hbracket
    rw [h t hop hbracket, leave, if_neg hbracket]
  | ⟨.group loc asOperand, outer⟩ :: σ, s, ⟨e, h⟩ => by
    refine .cons fun t ht => ⟨closeGroup loc asOperand e outer σ, ?_, ?_⟩
    · rw [h t (by rw [ht]; rfl) (by simp [ht]), leave, if_pos ht]
    · exact completes_of_over σ (over_closeGroup loc asOperand e outer σ)
  | ⟨.item l bound, outer⟩ :: σ, s, ⟨e, h⟩ => by
    refine .cons fun t ht => ⟨closeList (l.add (bound.complete e)) outer σ, ?_, ?_⟩
    · obtain ⟨hop, hbracket, hleave⟩ := leave_closer ht
      rw [h t hop hbracket, hleave]
    · exact completes_of_over σ (over_closeList _ outer σ)
  | ⟨.value m key, outer⟩ :: σ, s, ⟨e, h⟩ => by
    refine .cons fun t ht =>
      ⟨⟨.afterSimple (.map (Expr.insertEntry key e m.done) m.loc), outer, σ⟩, ?_, ?_⟩
    · rw [h t (by rw [ht]; rfl) (by simp [ht]), leave, endValue, ht]
    · exact completes_of_over σ over_afterSimple

/-! ## All states -/

theorem step_operand_name (ht : t.kind = .name) :
    step none ⟨.operand, c, σ⟩ t = .shift ⟨.afterSimple (.var t.text t.location), c, σ⟩ := by
  simp [step, beginOperand, beginOperand?, ht]

theorem step_expression_name (ht : t.kind = .name) :
    step none ⟨.expression, c, σ⟩ t = .shift ⟨.afterSimple (.var t.text t.location), c, σ⟩ := by
  rw [step_expression (by simp [ht]), step_operand_name ht]

theorem completes_expression : Completes ⟨.expression, c, σ⟩ (.name :: closers σ) :=
  .cons fun _ ht => ⟨_, step_expression_name ht, completes_of_over σ over_afterSimple⟩

theorem completes_colon (m : Entries) (key : String) :
    Completes ⟨.colon m key, c, σ⟩ (.colon :: .name :: .closeBrace :: closers σ) :=
  .cons fun _ ht => ⟨_, step_colon ht, completes_expression⟩

/-- **Every state can be completed**, by any tokens of the kinds that it lists. -/
theorem completes (s : State) : Completes s s.completion := by
  obtain ⟨goal, c, σ⟩ := s
  cases goal with
  | expression => exact completes_expression
  | operand =>
    exact .cons fun t ht => ⟨_, step_operand_name ht, completes_of_over σ over_afterSimple⟩
  | afterSimple e => exact completes_of_over σ over_afterSimple
  | afterOperand e => exact completes_of_over σ over_afterOperand
  | firstItem l =>
    refine .cons fun t ht => ⟨closeList l c σ, ?_, completes_of_over σ (over_closeList l c σ)⟩
    simp [step, ht]
  | item l =>
    refine .cons fun t ht => ⟨_, (step_item (by simp [ht])).trans (step_expression_name ht), ?_⟩
    exact completes_of_over (⟨.item l .absent, c⟩ :: σ) over_afterSimple
  | upperBound l e loc =>
    refine .cons fun t ht => ⟨_, (step_upperBound (.inr ht)).trans (separate_closer ht), ?_⟩
    exact completes_of_over σ (over_closeList _ c σ)
  | firstKey m =>
    refine .cons fun t ht =>
      ⟨⟨.afterSimple (.map m.done m.loc), c, σ⟩, ?_, completes_of_over σ over_afterSimple⟩
    simp [step, ht]
  | key m =>
    refine .cons fun t ht => ⟨⟨.colon m t.text, c, σ⟩, ?_, completes_colon m t.text⟩
    simp [step, readKey, ht]
  | colon m key => exact completes_colon m key

end

end Parser

end EL
