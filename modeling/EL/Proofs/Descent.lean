import EL.Parser.Descent
import EL.Proofs.Grammar.Runs
import EL.Proofs.Verdicts

/-!
# Recursive descent and the machine do the same

The procedures of recursive descent give the verdict that the machine comes to, and the counter of
depth is as it was before (`Resumable.parse_eq`).

A procedure is followed beside a run of the machine. `Sees` says where the run stands when the
procedure is called: what the procedures above are still to do is in its stack. `Tracks` says what
is known when the procedure returns. If it fails, the run is refused, with the same error at the same
place. If it does not, the run has come to the state that the procedure has its result for. So there
is one lemma for each procedure, by the lemmas for those that it calls, and **the counter is in none
of them**: `Tracks` asks for it at every end, the failures as well, and only `nested` has to care.

The rest is bookkeeping for the budgets. No procedure goes back in the text, and what is repeated
reads a token each time.
-/

set_option autoImplicit false

namespace EL

namespace Parser

namespace Proc

variable {α β : Type} {f : Proc α} {g : α → Proc β} {r r' : Reader}

theorem bind_of_ok {a : α} (h : f r = some (.ok a, r')) : (f >>= g) r = g a r' := by
  simp only [Bind.bind, h]

theorem bind_of_error {x : ParseError} (h : f r = some (.error x, r')) :
    (f >>= g) r = some (.error x, r') := by
  simp only [Bind.bind, h]

end Proc

/-! ## Procedures beside a run -/

section
variable {α β : Type} {v : Verdict} {r : Reader} {f : Proc α} {Q Q' : α → Reader → Prop}

/-- How much is left to read. -/
def Reader.left (r : Reader) : Nat := r.cursor.rest.length

/-- A procedure ends, at the depth it began at; if it fails, then with the verdict `v`. -/
def Tracks (v : Verdict) (f : Proc α) (r : Reader) (Q : α → Reader → Prop) : Prop :=
  ∃ result r', f r = some (result, r') ∧ r'.depth = r.depth ∧
    match result with
    | .ok a => r'.left ≤ r.left ∧ Q a r'
    | .error x => v = .refused x r'.cursor

theorem Tracks.imp (h : Tracks v f r Q)
    (hQ : ∀ a r', r'.depth = r.depth → r'.left ≤ r.left → Q a r' → Q' a r') :
    Tracks v f r Q' := by
  obtain ⟨result, r', hf, hd, h⟩ := h
  refine ⟨result, r', hf, hd, ?_⟩
  cases result with
  | ok a => exact ⟨h.1, hQ a r' hd h.1 h.2⟩
  | error x => exact h

theorem Tracks.bind {g : α → Proc β} {Q' : β → Reader → Prop} (h : Tracks v f r Q)
    (hg : ∀ a r', r'.depth = r.depth → r'.left ≤ r.left → Q a r' → Tracks v (g a) r' Q') :
    Tracks v (f >>= g) r Q' := by
  obtain ⟨result, r₁, hf, hd, h⟩ := h
  cases result with
  | error x => exact ⟨.error x, r₁, Proc.bind_of_error hf, hd, h⟩
  | ok a =>
    obtain ⟨result', r₂, hg, hd', h'⟩ := hg a r₁ hd h.1 h.2
    refine ⟨result', r₂, (Proc.bind_of_ok hf).trans hg, hd'.trans hd, ?_⟩
    cases result' with
    | ok b => exact ⟨Nat.le_trans h'.1 h.1, h'.2⟩
    | error x => exact h'

theorem tracks_pure {a : α} (h : Q a r) : Tracks v (pure a) r Q :=
  ⟨.ok a, r, rfl, rfl, Nat.le_refl _, h⟩

theorem tracks_fail {x : ParseError} (h : v = .refused x r.cursor) : Tracks v (.fail x) r Q :=
  ⟨.error x, r, rfl, rfl, h⟩

end

/-- The run with the verdict `v` is in this state, at the place of the reader. -/
def Sees (limit : Option Nat) (v : Verdict) (s : State) (r : Reader) : Prop :=
  v = run limit s r.cursor r.cursor.stream

section
variable {β : Type} {limit : Option Nat} {v : Verdict} {s : State} {r : Reader} {t : Token}
  {after : Cursor} {set : TokenSet} {Q : β → Reader → Prop}

theorem Sees.follow (h : Sees limit v s r) (hn : r.cursor.next = (.ok t, after)) :
    v = follow limit t r.cursor after (step limit s t) := h.trans (run_eq_follow hn s)

/-- Before a token that both states do the same with, one is as good as the other. -/
theorem Sees.congr {s' : State} (h : Sees limit v s r) (hn : r.cursor.next = (.ok t, after))
    (hs : step limit s t = step limit s' t) : Sees limit v s' r := by
  rw [Sees, run_eq_follow hn, ← hs]
  exact h.follow hn

/-- States that do the same with the next token, whatever it is, are the same. -/
theorem Sees.exchange {s' : State} (h : Sees limit v s r)
    (hb : s.goal.takesBlindly = s'.goal.takesBlindly)
    (hs : ∀ t after, r.cursor.next = (.ok t, after) → step limit s t = step limit s' t) :
    Sees limit v s' r := by
  match hn : r.cursor.next with
  | (.ok t, after) => exact h.congr hn (hs t after hn)
  | (.error x, stop) =>
    rw [Sees, run_of_error hn, ← hb, ← run_of_error hn]
    exact h

/-! ### Reading tokens -/

theorem tracks_peek (hs : Sees limit v s r) (hb : s.goal.takesBlindly = false) :
    Tracks v Proc.peek r fun t r' => r' = r ∧ ∃ after, r.cursor.next = (.ok t, after) := by
  match hn : r.cursor.next with
  | (.ok t, after) =>
    refine ⟨.ok t, r, ?_, rfl, Nat.le_refl _, rfl, after, rfl⟩
    simp only [Proc.peek, Cursor.peek, hn]
  | (.error x, stop) =>
    refine ⟨.error x, r, ?_, rfl, ?_⟩
    · simp only [Proc.peek, Cursor.peek, hn]
    · rw [Sees, run_of_error hn, hb] at hs
      exact hs

theorem tracks_peek_again {g : Token → Proc β} (hn : r.cursor.next = (.ok t, after))
    (h : Tracks v (g t) r Q) : Tracks v (Proc.peek >>= g) r Q := by
  have hpeek : Tracks v Proc.peek r fun t' r' => t' = t ∧ r' = r := by
    refine ⟨.ok t, r, ?_, rfl, Nat.le_refl _, rfl, rfl⟩
    simp only [Proc.peek, Cursor.peek, hn]
  refine hpeek.bind ?_
  rintro _ _ - - ⟨rfl, rfl⟩
  exact h

theorem tracks_check {a b : Proc β} (hs : Sees limit v s r) (hlook : s.goal.takesBlindly = false)
    (ha : ∀ t after, r.cursor.next = (.ok t, after) → t.kind ∈ set → Tracks v a r Q)
    (hb : ∀ t after, r.cursor.next = (.ok t, after) → t.kind ∉ set → Tracks v b r Q) :
    Tracks v (Proc.check set >>= fun x => if x = true then a else b) r Q := by
  have hcheck : Tracks v (Proc.check set) r fun x r' =>
      r' = r ∧ ∃ t after, r.cursor.next = (.ok t, after) ∧ x = decide (t.kind ∈ set) := by
    refine (tracks_peek hs hlook).bind ?_
    rintro t _ - - ⟨rfl, after, hn⟩
    exact tracks_pure ⟨rfl, t, after, hn, rfl⟩
  refine hcheck.bind ?_
  rintro _ _ - - ⟨rfl, t, after, hn, rfl⟩
  by_cases ht : t.kind ∈ set
  · rw [if_pos (decide_eq_true ht)]
    exact ha t after hn ht
  · rw [if_neg (by simpa using ht)]
    exact hb t after hn ht

theorem tracks_check_again {a b : Proc β} (hn : r.cursor.next = (.ok t, after))
    (ha : t.kind ∈ set → Tracks v a r Q) (hb : t.kind ∉ set → Tracks v b r Q) :
    Tracks v (Proc.check set >>= fun x => if x = true then a else b) r Q := by
  have hcheck : Tracks v (Proc.check set) r fun x r' => r' = r ∧ x = decide (t.kind ∈ set) :=
    tracks_peek_again hn (tracks_pure ⟨rfl, rfl⟩)
  refine hcheck.bind ?_
  rintro _ _ - - ⟨rfl, rfl⟩
  by_cases ht : t.kind ∈ set
  · rw [if_pos (decide_eq_true ht)]
    exact ha ht
  · rw [if_neg (by simpa using ht)]
    exact hb ht

theorem left_next_le (hn : r.cursor.next = (.ok t, after)) :
    after.rest.length ≤ r.left := by
  by_cases ht : t.kind = .endOfInput
  · obtain ⟨-, -, rfl⟩ := Cursor.next_eq_end hn ht
    exact Nat.zero_le _
  · exact Nat.le_of_lt (Cursor.length_rest_next_lt hn ht)

theorem tracks_next {g : Token → Proc β} (hn : r.cursor.next = (.ok t, after))
    (h : Tracks v (g t) { r with cursor := after } Q) : Tracks v (Proc.next >>= g) r Q := by
  have hnext : Tracks v Proc.next r fun t' r' => t' = t ∧ r' = { r with cursor := after } := by
    refine ⟨.ok t, { r with cursor := after }, ?_, rfl, left_next_le hn, rfl, rfl⟩
    simp only [Proc.next, hn]
  refine hnext.bind ?_
  rintro _ _ - - ⟨rfl, rfl⟩
  exact h

/-- A token is taken blindly only where the machine does it too. -/
theorem tracks_next_blindly {g : Token → Proc β} (hs : Sees limit v s r)
    (hb : s.goal.takesBlindly = true)
    (h : ∀ t after, r.cursor.next = (.ok t, after) →
      Tracks v (g t) { r with cursor := after } Q) : Tracks v (Proc.next >>= g) r Q := by
  match hn : r.cursor.next with
  | (.ok t, after) => exact tracks_next hn (h t after hn)
  | (.error x, stop) =>
    have hnext : Tracks v Proc.next r fun _ _ => False := by
      refine ⟨.error x, { r with cursor := stop }, ?_, rfl, ?_⟩
      · simp only [Proc.next, hn]
      · rw [Sees, run_of_error hn, hb] at hs
        exact hs
    exact hnext.bind nofun

theorem tracks_expect {g : Unit → Proc β} (h : t.kind ∈ set → Tracks v (g ()) r Q)
    (hne : t.kind ∉ set → v = .refused (.expected set t) r.cursor) :
    Tracks v (Proc.expect set t >>= g) r Q := by
  unfold Proc.expect
  by_cases ht : t.kind ∈ set
  · rw [if_pos ht]
    exact (tracks_pure (Q := fun _ r' => r' = r) rfl).bind fun _ _ _ _ hr => hr ▸ h ht
  · rw [if_neg ht]
    exact (tracks_fail (Q := fun _ _ => False) (hne ht)).bind nofun

/-- A token that is known to be one of the set. -/
theorem tracks_opening {g : Token → Unit → Proc β} (hn : r.cursor.next = (.ok t, after))
    (ht : t.kind ∈ set) (h : Tracks v (g t ()) { r with cursor := after } Q) :
    Tracks v (Proc.next >>= fun t => Proc.expect set t >>= g t) r Q :=
  tracks_next hn (tracks_expect (fun _ => h) fun hne => absurd ht hne)

/-! ### Depth and repetition -/

theorem tracks_checkDepth {g : Unit → Proc β}
    (h : (∀ n, limit = some n → r.depth ≤ n) → Tracks v (g ()) r Q)
    (hdeep : ∀ n, limit = some n → n < r.depth →
      v = .refused ⟨.tooDeep n, t.location, none⟩ r.cursor) :
    Tracks v (Proc.checkDepth limit t >>= g) r Q := by
  by_cases hadmits : ∀ n, limit = some n → r.depth ≤ n
  · have hadmit : Tracks v (Proc.checkDepth limit t) r fun _ r' => r' = r := by
      refine ⟨.ok (), r, ?_, rfl, Nat.le_refl _, rfl⟩
      cases limit with
      | none => rfl
      | some n => exact if_neg (Nat.not_lt.mpr (hadmits n rfl))
    exact hadmit.bind fun _ _ _ _ hr => hr ▸ h hadmits
  · obtain ⟨n, rfl, hn⟩ : ∃ n, limit = some n ∧ n < r.depth := by
      simpa using hadmits
    have hadmit : Tracks v (Proc.checkDepth (some n) t) r fun _ _ => False :=
      ⟨.error ⟨.tooDeep n, t.location, none⟩, r, if_pos hn, rfl, hdeep n rfl hn⟩
    exact hadmit.bind nofun

theorem tracks_nested {f : Proc β}
    (h : Tracks v f { r with depth := r.depth + 1 } fun b r' => Q b { r' with depth := r.depth }) :
    Tracks v (Proc.nested f) r Q := by
  obtain ⟨result, r', hf, hd, hresult⟩ := h
  refine ⟨result, { r' with depth := r.depth }, ?_, rfl, ?_⟩
  · rw [Proc.nested, hf, Option.map_some, hd]
    rfl
  · cases result <;> exact hresult

/-- What is repeated must read something each time it goes on. -/
theorem tracks_repeated {α : Type} {body : α → Proc (α ⊕ β)} {a : α} {I : α → Reader → Prop}
    (hI : I a r) (hbody : ∀ a r', r'.depth = r.depth → r'.left ≤ r.left → I a r' →
      Tracks v (body a) r' fun x r'' =>
        (∀ a', x = .inl a' → r''.left < r'.left ∧ I a' r'') ∧ ∀ b, x = .inr b → Q b r'') :
    Tracks v (Proc.repeated body a) r Q := by
  have hloop : ∀ n a r', r'.depth = r.depth → r'.left ≤ r.left → I a r' → r'.left < n →
      Tracks v (Proc.loop body n a) r' Q := by
    intro n
    induction n with
    | zero => exact fun _ _ _ _ _ hn => absurd hn (Nat.not_lt_zero _)
    | succ n ih =>
      intro a r' hd hl hI hn
      refine (hbody a r' hd hl hI).bind ?_
      rintro (a' | b) r'' hd' hl' ⟨hnext, hdone⟩
      · obtain ⟨hlt, hI'⟩ := hnext a' rfl
        exact ih a' r'' (hd'.trans hd) (Nat.le_trans hl' hl) hI' (by omega)
      · exact tracks_pure (hdone b rfl)
  exact hloop (r.left + 1) a r rfl (Nat.le_refl _) hI (Nat.lt_succ_self _)

/-- Behind an item of any list, a comma goes on with the next one, and the closer ends the list. -/
theorem tracks_separator {α : Type} {close : Kind} {x : α} {y : β} {m : Nat} {I : α → Reader → Prop}
    (hn : r.cursor.next = (.ok t, after)) (hm : r.left ≤ m)
    (hmore : t.kind = .comma → I x { r with cursor := after })
    (hdone : t.kind = close → Q y { r with cursor := after })
    (hrefuse : t.kind ≠ .comma → t.kind ≠ close →
      v = .refused (.expected {.comma, close} t) after) :
    Tracks v (do
        let t ← Proc.next
        Proc.expect {.comma, close} t
        if t.kind = close then return .inr y
        else return .inl x : Proc (α ⊕ β)) r
      fun o r' => (∀ x', o = .inl x' → r'.left < m ∧ I x' r') ∧ ∀ y', o = .inr y' → Q y' r' := by
  refine tracks_next hn (tracks_expect (fun ht => ?_) fun ht => ?_)
  · by_cases hk : t.kind = close
    · rw [if_pos hk]
      refine tracks_pure ⟨nofun, ?_⟩
      rintro _ ⟨⟩
      exact hdone hk
    · have hcomma : t.kind = .comma := by simpa [hk] using ht
      have hlt := Cursor.length_rest_next_lt hn (by rw [hcomma]; decide)
      rw [if_neg hk]
      refine tracks_pure ⟨?_, nofun⟩
      rintro _ ⟨⟩
      exact ⟨Nat.lt_of_lt_of_le hlt hm, hmore hcomma⟩
  · obtain ⟨hcomma, hcloser⟩ : t.kind ≠ .comma ∧ t.kind ≠ close := by simpa using ht
    exact hrefuse hcomma hcloser

end

/-! ## The procedures, one by one -/

theorem BinaryOp.exists_ofKind? {k : Kind} (h : k ∈ TokenSet.chaining) :
    ∃ op, BinaryOp.ofKind? k = some op := by
  refine Option.ne_none_iff_exists'.mp fun hnone => ?_
  exact BinaryOp.ofKind?_eq_none_iff.mp hnone h

theorem UnaryOp.exists_ofKind? {k : Kind} (h : k ∈ TokenSet.sign) :
    ∃ op, UnaryOp.ofKind? k = some op := by
  simp only [TokenSet.sign, TokenSet.mem_insert, TokenSet.mem_singleton] at h
  rcases h with rfl | rfl | rfl | rfl <;> exact ⟨_, rfl⟩

/-- Where the end of input is not wanted, it is not what was found. -/
theorem ne_endOfInput {k : Kind} {set : TokenSet} (h : k ∈ set)
    (hset : set.has .endOfInput = false) : k ≠ .endOfInput := by
  rintro rfl
  exact absurd h (by rw [TokenSet.mem_def, hset]; decide)

theorem step_operand_refuse {limit : Option Nat} {t : Token} {c : Chain} {σ : List Frame}
    (ht : t.kind ∉ TokenSet.operand) :
    step limit ⟨.operand, c, σ⟩ t = need .operand t false := by
  simp only [step, beginOperand, beginOperand?_eq_none_iff.mpr ht]

/-- Only an index can begin with the dots of a range. -/
theorem step_item_expression {limit : Option Nat} {t : Token} {l : Listing} {c : Chain}
    {σ : List Frame} (hl : ∀ target, l.shape ≠ .index target) :
    step limit ⟨.item l, c, σ⟩ t =
      step limit ⟨.expression, .fresh c.depth, ⟨.item l .absent, c⟩ :: σ⟩ t := by
  simp only [step, beginItem]
  split
  · rename_i target _ h
    exact absurd h (hl target)
  · rfl

theorem endItem_range_array {t : Token} {e : Expr} {loc : Location} {done : List Expr}
    {c : Chain} {σ : List Frame} (ht : t.kind = .range) :
    endItem ⟨.array, loc, done⟩ .absent e c σ t = .shift ⟨.expression, .fresh c.depth,
      ⟨.item ⟨.array, loc, done⟩ (.lower e t.location), c⟩ :: σ⟩ := by
  unfold endItem
  rw [ht]

theorem endItem_range_index {t : Token} {e target : Expr} {loc : Location} {done : List Expr}
    {c : Chain} {σ : List Frame} (ht : t.kind = .range) :
    endItem ⟨.index target, loc, done⟩ .absent e c σ t =
      .shift ⟨.upperBound ⟨.index target, loc, done⟩ e t.location, c, σ⟩ := by
  unfold endItem
  rw [ht]

theorem endItem_switch {t : Token} {l : Listing} {bound : Bound} {e : Expr} {c : Chain}
    {σ : List Frame} (hl : l.shape = .switch) :
    endItem l bound e c σ t = separate (l.add (bound.complete e)) c σ t := by
  unfold endItem
  split
  · rename_i h
    cases hl.symm.trans h
  · rename_i h
    cases hl.symm.trans h
  · rfl

/-- The procedure for operands does what the machine does with one, where less than so many
    characters are left. -/
def TakesOperand (limit : Option Nat) (v : Verdict) (operand : Proc Expr) (n : Nat) : Prop :=
  ∀ (r : Reader) (c : Chain) (σ : List Frame), r.left < n → c.depth = r.depth + 1 →
    Sees limit v ⟨.operand, c, σ⟩ r →
      Tracks v operand r fun e r' => Sees limit v (c.resume e σ) r'

/-- An expression has ended before the next token, which is not an operator. -/
def Ended (limit : Option Nat) (v : Verdict) (σ : List Frame) (e : Expr) (r : Reader) : Prop :=
  ∃ t after, r.cursor.next = (.ok t, after) ∧ BinaryOp.ofKind? t.kind = none ∧
    v = follow limit t r.cursor after (leave t e σ)

namespace Descent

section
variable {limit : Option Nat} {v : Verdict} {operand : Proc Expr} {n : Nat}
  (ho : TakesOperand limit v operand n) {r : Reader} {c : Chain} {σ : List Frame} {t : Token}
  {after : Cursor}
include ho

theorem tracks_compoundTerm {lhs : Expr} (hl : r.left ≤ n)
    (hs : Sees limit v ⟨.afterOperand lhs, .fresh r.depth, σ⟩ r) :
    Tracks v (compoundTerm operand lhs) r (Ended limit v σ) := by
  -- Between two operands, the run is in the state after the chain so far.
  refine tracks_repeated
    (I := fun lhs r' => Sees limit v ⟨.afterOperand lhs, .fresh r.depth, σ⟩ r') hs ?_
  intro lhs r' hd hl' hs
  refine tracks_check hs rfl (fun t after hn ht => ?_) (fun t after hn ht => ?_)
  · obtain ⟨op, hop⟩ := BinaryOp.exists_ofKind? ht
    have hlt := Cursor.length_rest_next_lt hn (ne_endOfInput ht rfl)
    have hv := hs.follow hn
    rw [step_binop hop] at hv
    refine tracks_next hn ?_
    simp only [hop]
    have hlt' := Nat.lt_of_lt_of_le hlt (Nat.le_trans hl' hl)
    refine (ho { r' with cursor := after } _ σ hlt' (by rw [hd]; rfl) hv).bind ?_
    intro e r'' hd' hl'' hs''
    refine tracks_pure ⟨?_, nofun⟩
    rintro _ ⟨⟩
    exact ⟨Nat.lt_of_le_of_lt hl'' hlt, hs''⟩
  · have hop := BinaryOp.ofKind?_eq_none_iff.mpr ht
    have hv := hs.follow hn
    rw [step_leave hop] at hv
    refine tracks_pure ⟨nofun, ?_⟩
    rintro _ ⟨⟩
    exact ⟨t, after, hn, hop, hv⟩

theorem tracks_term (hl : r.left < n) (hs : Sees limit v ⟨.operand, .fresh r.depth, σ⟩ r) :
    Tracks v (term operand) r (Ended limit v σ) := by
  refine (tracks_peek hs rfl).bind ?_
  rintro t _ - - ⟨rfl, after, hn⟩
  refine tracks_expect (fun ht => ?_) (fun ht => ?_)
  · refine (ho _ _ _ hl rfl hs).bind ?_
    intro lhs r' hd hl' hs'
    refine tracks_compoundTerm ho (Nat.le_trans hl' (Nat.le_of_lt hl)) ?_
    rw [hd]
    exact hs'
  · have hv := hs.follow hn
    rw [step_operand_refuse ht] at hv
    exact hv

theorem tracks_groupedTerm {asOperand : Bool} {σ' : List Frame} (hl : r.left ≤ n)
    (hn : r.cursor.next = (.ok t, after)) (ht : t.kind = .openParen)
    (hs : Sees limit v ⟨.operand, .fresh r.depth, ⟨.group t.location asOperand, c⟩ :: σ⟩
      { r with cursor := after })
    (hclose : ∀ e, closeGroup t.location asOperand e c σ =
      ⟨.afterOperand (.unary .group e t.location), .fresh r.depth, σ'⟩) :
    Tracks v (groupedTerm operand) r (Ended limit v σ') := by
  have hlt := Cursor.length_rest_next_lt hn (by rw [ht]; decide)
  refine tracks_opening hn (by simp [ht]) ?_
  refine (tracks_term ho (Nat.lt_of_lt_of_le hlt hl) hs).bind ?_
  rintro e r' hd hl' ⟨u, stop, hu, -, hv⟩
  have hle := left_next_le hu
  refine tracks_next hu (tracks_expect (fun hk => ?_) fun hk => ?_)
  · rw [leave, if_pos (by simpa using hk), hclose] at hv
    refine tracks_compoundTerm ho ?_ ?_
    · exact Nat.le_trans hle (Nat.le_trans hl' (Nat.le_trans (Nat.le_of_lt hlt) hl))
    · have hdepth : r'.depth = r.depth := hd
      rw [← hdepth] at hv
      exact hv
  · rw [leave, if_neg (by simpa using hk)] at hv
    exact hv

theorem tracks_expression (hl : r.left < n)
    (hs : Sees limit v ⟨.expression, .fresh r.depth, σ⟩ r) :
    Tracks v (expression operand) r (Ended limit v σ) := by
  refine tracks_check hs rfl (fun t after hn ht => ?_) (fun t after hn ht => ?_)
  · have ht : t.kind = .openParen := by simpa using ht
    have hv := hs.follow hn
    rw [step, beginExpression, if_pos ht] at hv
    exact tracks_groupedTerm ho (Nat.le_of_lt hl) hn ht hv fun e => rfl
  · exact tracks_term ho hl (hs.congr hn (step_expression (by simpa using ht)))

/-! ### Lists -/

/-- An item has ended before the next token. -/
def Separated (limit : Option Nat) (v : Verdict) (l : Listing) (c : Chain) (σ : List Frame)
    (e : Expr) (r : Reader) : Prop :=
  ∃ t after, r.cursor.next = (.ok t, after) ∧
    v = follow limit t r.cursor after (separate (l.add e) c σ t)

/-- A procedure does what the machine does with an item of a list. -/
def TakesItem (limit : Option Nat) (v : Verdict) (s : Shape) (item : Proc Expr) (n : Nat) : Prop :=
  ∀ (r : Reader) (l : Listing) (c : Chain) (σ : List Frame), l.shape = s → r.left < n →
    c.depth = r.depth → Sees limit v ⟨.item l, c, σ⟩ r →
      Tracks v item r (Separated limit v l c σ)

omit ho in
theorem tracks_list {s : Shape} {loc : Location} {item : Proc Expr}
    (hitem : TakesItem limit v s item n) (hl : r.left < n) (hc : c.depth = r.depth)
    (hs : Sees limit v ⟨.firstItem ⟨s, loc, []⟩, c, σ⟩ r)
    (hfirst : s = .switch → ∀ t after, r.cursor.next = (.ok t, after) →
      t.kind ∈ TokenSet.simpleTerm ∪ {.closeSwitch}) :
    Tracks v (list s.closer item) r fun es r' =>
      Sees limit v (closeList ⟨s, loc, es.reverse⟩ c σ) r' := by
  refine tracks_check hs rfl (fun t after hn ht => ?_) (fun t after hn ht => ?_)
  · have hv := hs.follow hn
    rw [step_firstItem_closer (by simpa using ht)] at hv
    exact tracks_next hn (tracks_pure hv)
  · have ht : t.kind ≠ s.closer := by simpa using ht
    have hs' : Sees limit v ⟨.item ⟨s, loc, []⟩, c, σ⟩ r := by
      refine hs.congr hn (step_firstItem ht ?_)
      rintro rfl
      have hk := hfirst rfl t after hn
      simp only [TokenSet.mem_union, TokenSet.mem_singleton] at hk
      exact hk.resolve_right ht
    -- Before each item, the run has the items so far, in reverse.
    refine tracks_repeated (I := fun done r' => Sees limit v ⟨.item ⟨s, loc, done⟩, c, σ⟩ r') hs' ?_
    intro done r' hd hl' hs
    refine (hitem r' _ c σ rfl (Nat.lt_of_le_of_lt hl' hl) (hc.trans hd.symm) hs).bind ?_
    rintro e r'' - hl'' ⟨t, after, hn, hv⟩
    refine tracks_separator hn hl'' (fun ht => ?_) (fun ht => ?_) fun hcomma hcloser => ?_
    · rw [separate_comma ht] at hv
      exact hv
    · rw [separate_closer ht] at hv
      rw [List.reverse_reverse]
      exact hv
    · have hcloser : t.kind ≠ (Listing.add ⟨s, loc, done⟩ e).closer := hcloser
      rw [separate, if_neg hcomma, if_neg hcloser] at hv
      exact hv

/-- An expression in an item of a list. -/
theorem tracks_bound {l : Listing} {bound : Bound} (hl : r.left < n) (hc : c.depth = r.depth)
    (hs : Sees limit v ⟨.expression, .fresh c.depth, ⟨.item l bound, c⟩ :: σ⟩ r) :
    Tracks v (expression operand) r fun e r' => ∃ t after, r'.cursor.next = (.ok t, after) ∧
      v = follow limit t r'.cursor after (endItem l bound e c σ t) := by
  rw [hc] at hs
  refine (tracks_expression ho hl hs).imp ?_
  rintro e r' - - ⟨t, after, hn, -, hv⟩
  exact ⟨t, after, hn, hv⟩

/-- The last expression in an item. -/
theorem tracks_upper {l : Listing} (bound : Bound) (hbound : bound ≠ .absent) (hl : r.left < n)
    (hc : c.depth = r.depth)
    (hs : Sees limit v ⟨.expression, .fresh c.depth, ⟨.item l bound, c⟩ :: σ⟩ r) :
    Tracks v (expression operand) r fun e => Separated limit v l c σ (bound.complete e) := by
  refine (tracks_bound ho hl hc hs).imp ?_
  rintro e r' - - ⟨t, after, hn, hv⟩
  rw [endItem_eq_separate fun h => hbound h.2] at hv
  exact ⟨t, after, hn, hv⟩

theorem takesItem_element : TakesItem limit v .array (element operand) n := by
  rintro r ⟨_, loc, done⟩ c σ rfl hl hc hs
  have hs' : Sees limit v
      ⟨.expression, .fresh c.depth, ⟨.item ⟨.array, loc, done⟩ .absent, c⟩ :: σ⟩ r :=
    hs.exchange rfl fun t after hn => step_item_expression nofun
  refine (tracks_bound ho hl hc hs').bind ?_
  rintro e r' hd hl' ⟨t, after, hn, hv⟩
  refine tracks_check_again hn (fun ht => ?_) (fun ht => ?_)
  · have ht : t.kind = .range := by simpa using ht
    rw [endItem_range_array ht] at hv
    have hle := Nat.le_trans (left_next_le hn) hl'
    refine tracks_next hn ((tracks_upper ho (r := { r' with cursor := after })
      (.lower e t.location) nofun (Nat.lt_of_le_of_lt hle hl) (hc.trans hd.symm) hv).bind ?_)
    exact fun upper r'' _ _ hsep => tracks_pure hsep
  · rw [endItem_eq_separate fun h => ht (by simpa using h.1)] at hv
    exact tracks_pure ⟨t, after, hn, hv⟩

theorem takesItem_index (target : Expr) :
    TakesItem limit v (.index target) (index operand) n := by
  rintro r ⟨_, loc, done⟩ c σ rfl hl hc hs
  refine tracks_check hs rfl (fun t after hn ht => ?_) (fun t after hn ht => ?_)
  · have hv := hs.follow hn
    rw [step_item_range (by simpa using ht)] at hv
    have hle := left_next_le hn
    refine tracks_next hn ((tracks_upper ho (r := { r with cursor := after })
      (.dots t.location) nofun (Nat.lt_of_le_of_lt hle hl) hc hv).bind ?_)
    exact fun upper r'' _ _ hsep => tracks_pure hsep
  · have hs' := hs.congr hn (step_item (by simpa using ht))
    refine (tracks_bound ho hl hc hs').bind ?_
    rintro e r' hd hl' ⟨u, stop, hu, hv⟩
    refine tracks_check_again hu (fun hk => ?_) (fun hk => ?_)
    · have hk : u.kind = .range := by simpa using hk
      -- Behind the dots it is the next token that tells whether there is an upper bound.
      have hs'' : Sees limit v ⟨.upperBound ⟨.index target, loc, done⟩ e u.location, c, σ⟩
          { r' with cursor := stop } := by
        rw [endItem_range_index hk] at hv
        exact hv
      have hle := Nat.le_trans (left_next_le hu) hl'
      refine tracks_next hu (tracks_check hs'' rfl (fun w last hw hbegins => ?_)
        fun w last hw hbegins => ?_)
      · have hs₃ := hs''.congr hw (step_upperBound_begins hbegins)
        refine (tracks_upper ho (r := { r' with cursor := stop }) (.lower e u.location)
          nofun (Nat.lt_of_le_of_lt hle hl) (hc.trans hd.symm) hs₃).bind ?_
        exact fun upper r'' _ _ hsep => tracks_pure hsep
      · have hv' := hs''.follow hw
        simp only [step, if_neg hbegins] at hv'
        exact tracks_pure ⟨w, last, hw, hv'⟩
    · rw [endItem_eq_separate fun h => hk (by simpa using h.1)] at hv
      exact tracks_pure ⟨u, stop, hu, hv⟩

theorem takesItem_branch : TakesItem limit v .switch (expression operand) n := by
  rintro r ⟨_, loc, done⟩ c σ rfl hl hc hs
  have hs' : Sees limit v
      ⟨.expression, .fresh c.depth, ⟨.item ⟨.switch, loc, done⟩ .absent, c⟩ :: σ⟩ r :=
    hs.exchange rfl fun t after hn => step_item_expression nofun
  refine (tracks_bound ho hl hc hs').imp ?_
  rintro e r' - - ⟨t, after, hn, hv⟩
  rw [endItem_switch rfl] at hv
  exact ⟨t, after, hn, hv⟩

theorem tracks_subscript {target : Expr} (hl : r.left ≤ n) (hc : c.depth = r.depth)
    (hn : r.cursor.next = (.ok t, after)) (ht : t.kind = .openBracket)
    (hs : Sees limit v ⟨.firstItem ⟨.index target, t.location, []⟩, c, σ⟩
      { r with cursor := after }) :
    Tracks v (subscript operand target) r fun e r' =>
      r'.left < r.left ∧ Sees limit v ⟨.afterSimple e, c, σ⟩ r' := by
  have hlt := Cursor.length_rest_next_lt hn (by rw [ht]; decide)
  refine tracks_opening hn (by simp [ht]) ?_
  refine (tracks_list (r := { r with cursor := after }) (takesItem_index ho target)
    (Nat.lt_of_lt_of_le hlt hl) hc hs nofun).bind ?_
  intro es r' _ hl' hs'
  exact tracks_pure ⟨Nat.lt_of_le_of_lt hl' hlt, hs'⟩

theorem tracks_array (hl : r.left ≤ n) (hc : c.depth = r.depth)
    (hn : r.cursor.next = (.ok t, after)) (ht : t.kind = .openBracket)
    (hs : Sees limit v ⟨.firstItem ⟨.array, t.location, []⟩, c, σ⟩ { r with cursor := after }) :
    Tracks v (array operand) r fun e r' => Sees limit v ⟨.afterSimple e, c, σ⟩ r' := by
  have hlt := Cursor.length_rest_next_lt hn (by rw [ht]; decide)
  refine tracks_opening hn (by simp [ht]) ?_
  refine (tracks_list (r := { r with cursor := after }) (takesItem_element ho)
    (Nat.lt_of_lt_of_le hlt hl) hc hs nofun).bind ?_
  intro es r' _ _ hs'
  rw [closeList, Listing.items, List.reverse_reverse] at hs'
  exact tracks_pure hs'

theorem tracks_switch (hl : r.left ≤ n) (hc : c.depth = r.depth)
    (hn : r.cursor.next = (.ok t, after)) (ht : t.kind = .openSwitch)
    (hs : Sees limit v ⟨.firstItem ⟨.switch, t.location, []⟩, c, σ⟩ { r with cursor := after }) :
    Tracks v (switch operand) r fun e r' => Sees limit v (c.resume e σ) r' := by
  have hlt := Cursor.length_rest_next_lt hn (by rw [ht]; decide)
  refine tracks_opening hn (by simp [ht]) ?_
  refine (tracks_peek hs rfl).bind ?_
  rintro first _ - - ⟨rfl, stop, hfirst⟩
  refine tracks_expect (fun hk => ?_) (fun hk => ?_)
  · refine (tracks_list (r := { r with cursor := after }) (takesItem_branch ho)
      (Nat.lt_of_lt_of_le hlt hl) hc hs ?_).bind ?_
    · rintro - u stop' hu
      cases hfirst.symm.trans hu
      exact hk
    · intro es r' _ _ hs'
      rw [closeList_switch, List.reverse_reverse] at hs'
      exact tracks_pure hs'
  · obtain ⟨hsimple, hcloser⟩ :
        first.kind ∉ TokenSet.simpleTerm ∧ first.kind ≠ .closeSwitch := by simpa using hk
    have hv := hs.follow hfirst
    simp only [step, Listing.closer, if_neg hcloser, if_neg hsimple] at hv
    exact hv

/-! ### Maps -/

omit ho in
theorem tracks_key {m : Entries} (hs : Sees limit v ⟨.key m, c, σ⟩ r) :
    Tracks v key r fun k r' => r'.left < r.left ∧ Sees limit v ⟨.colon m k, c, σ⟩ r' := by
  refine tracks_next_blindly hs rfl fun t after hn => tracks_expect (fun ht => ?_) fun ht => ?_
  · have hlt := Cursor.length_rest_next_lt hn (ne_endOfInput ht rfl)
    have hv : v = follow limit t r.cursor after (readKey m c σ t) := hs.follow hn
    have hk : t.kind = .name ∨ t.kind = .string := by simpa using ht
    refine tracks_pure ⟨hlt, hv.trans ?_⟩
    rcases hk with hk | hk <;> simp [readKey, hk, follow]
  · obtain ⟨hname, hstring⟩ : t.kind ≠ .name ∧ t.kind ≠ .string := by simpa using ht
    have hv : v = follow limit t r.cursor after (readKey m c σ t) := hs.follow hn
    rw [readKey_refuse hname hstring] at hv
    exact hv

theorem tracks_entries {loc : Location} (hl : r.left < n) (hc : c.depth = r.depth)
    (hs : Sees limit v ⟨.firstKey ⟨loc, []⟩, c, σ⟩ r) :
    Tracks v (entries operand) r fun m r' =>
      Sees limit v ⟨.afterSimple (.map m loc), c, σ⟩ r' := by
  refine tracks_check hs rfl (fun t after hn ht => ?_) (fun t after hn ht => ?_)
  · have hv := hs.follow hn
    simp only [step, if_pos (show t.kind = .closeBrace by simpa using ht)] at hv
    exact tracks_next hn (tracks_pure hv)
  · have hs' : Sees limit v ⟨.key ⟨loc, []⟩, c, σ⟩ r := by
      refine hs.congr hn ?_
      simp only [step, if_neg (show t.kind ≠ .closeBrace by simpa using ht)]
    refine tracks_repeated (I := fun m r' => Sees limit v ⟨.key ⟨loc, m⟩, c, σ⟩ r') hs' ?_
    intro m r' hd hl' hs
    refine (tracks_key hs).bind ?_
    rintro k r₁ hd₁ - ⟨hlt, hs₁⟩
    refine tracks_next_blindly hs₁ rfl fun colon stop hn =>
      tracks_expect (fun ht => ?_) fun ht => ?_
    · have hv := hs₁.follow hn
      rw [step_colon (by simpa using ht), hc, ← hd, ← hd₁] at hv
      have hle : stop.rest.length < r'.left := Nat.lt_of_le_of_lt (left_next_le hn) hlt
      have hle' : stop.rest.length < n := Nat.lt_trans hle (Nat.lt_of_le_of_lt hl' hl)
      refine (tracks_expression ho (r := { r₁ with cursor := stop }) hle' hv).bind ?_
      rintro e r₂ - hl₂ ⟨t, after, hn, -, hv⟩
      have hle₂ : r₂.left ≤ r'.left := Nat.le_trans hl₂ (Nat.le_of_lt hle)
      rw [leave] at hv
      refine tracks_separator hn hle₂ (fun ht => ?_) (fun ht => ?_) fun hcomma hcloser => ?_
      · rw [endValue, ht] at hv
        exact hv
      · rw [endValue, ht] at hv
        exact hv
      · rw [endValue_refuse hcomma hcloser] at hv
        exact hv
    · have hv := hs₁.follow hn
      simp only [step, if_neg (show colon.kind ≠ .colon by simpa using ht)] at hv
      exact hv

theorem tracks_map (hl : r.left ≤ n) (hc : c.depth = r.depth)
    (hn : r.cursor.next = (.ok t, after)) (ht : t.kind = .openBrace)
    (hs : Sees limit v ⟨.firstKey ⟨t.location, []⟩, c, σ⟩ { r with cursor := after }) :
    Tracks v (map operand) r fun e r' => Sees limit v ⟨.afterSimple e, c, σ⟩ r' := by
  have hlt := Cursor.length_rest_next_lt hn (by rw [ht]; decide)
  refine tracks_opening hn (by simp [ht]) ?_
  refine (tracks_entries ho (r := { r with cursor := after }) (Nat.lt_of_lt_of_le hlt hl) hc
    hs).bind ?_
  exact fun m r' _ _ hs' => tracks_pure hs'

/-! ### Operands -/

omit ho in
/-- A token that is an operand by itself. -/
theorem tracks_value {out : Outcome} (hb : beginOperand? c σ t = some out)
    (hk : t.kind ∈ TokenSet.literal) (hn : r.cursor.next = (.ok t, after))
    (hv : v = follow limit t r.cursor after out) :
    Tracks v (value t >>= fun x => Proc.next >>= fun _ => pure (.literal x t.location)) r
      fun e r' => Sees limit v ⟨.afterSimple e, c, σ⟩ r' := by
  have hshift : ∀ x, out = .shift ⟨.afterSimple (.literal x t.location), c, σ⟩ →
      value t = pure x →
      Tracks v (value t >>= fun x => Proc.next >>= fun _ => pure (.literal x t.location)) r
        fun e r' => Sees limit v ⟨.afterSimple e, c, σ⟩ r' := by
    rintro x rfl hx
    rw [hx]
    refine (tracks_pure (Q := fun y r' => y = x ∧ r' = r) ⟨rfl, rfl⟩).bind ?_
    rintro _ _ - - ⟨rfl, rfl⟩
    exact tracks_next hn (tracks_pure hv)
  simp only [TokenSet.literal, TokenSet.mem_insert, TokenSet.mem_singleton] at hk
  rcases hk with hk | hk | hk | hk
  · simp only [beginOperand?, hk] at hb
    cases hb
    exact hshift _ rfl (by simp only [value, hk])
  · simp only [beginOperand?, hk] at hb
    split at hb
    · rename_i s m hnumber
      cases hb
      exact hshift _ rfl (by simp only [value, hk, hnumber])
    · rename_i hnumber
      cases hb
      have hfail : value t = Proc.fail ⟨.malformedNumber t.text, t.location, none⟩ := by
        simp only [value, hk]
      rw [hfail]
      refine (tracks_fail (Q := fun _ _ => False) hv).bind ?_
      rintro _ _ - - ⟨⟩
  · simp only [beginOperand?, hk] at hb
    cases hb
    exact hshift _ rfl (by simp only [value, hk])
  · simp only [beginOperand?, hk] at hb
    cases hb
    exact hshift _ rfl (by simp only [value, hk])

theorem tracks_simpleTerm {out : Outcome} (hl : r.left ≤ n) (hc : c.depth = r.depth)
    (hn : r.cursor.next = (.ok t, after)) (ht : t.kind ∈ TokenSet.simpleTerm)
    (hb : beginOperand? c σ t = some out) (hv : v = follow limit t r.cursor after out) :
    Tracks v (simpleTerm operand) r fun e r' => Sees limit v ⟨.afterSimple e, c, σ⟩ r' := by
  have hlt := Cursor.length_rest_next_lt hn (ne_endOfInput ht rfl)
  refine tracks_peek_again hn (tracks_expect (fun _ => ?_) fun hk => absurd ht hk)
  by_cases hsign : t.kind ∈ TokenSet.sign
  · -- A sign begins another operand, and the signed operand is the simple term.
    obtain ⟨op, hop⟩ := UnaryOp.exists_ofKind? hsign
    rw [if_pos hsign]
    rw [beginOperand?_sign hop] at hb
    cases hb
    refine tracks_opening hn hsign ?_
    simp only [hop]
    have hdepth : Chain.depth { c with signs := (op, t.location) :: c.signs } = r.depth + 1 := by
      rw [← hc]
      simp only [Chain.depth, List.length_cons]
      omega
    refine (ho { r with cursor := after } _ σ (Nat.lt_of_lt_of_le hlt hl) hdepth hv).bind ?_
    exact fun e r' _ _ hs => tracks_pure hs
  rw [if_neg hsign]
  by_cases hparen : t.kind = .openParen
  · rw [if_pos hparen]
    simp only [beginOperand?, hparen] at hb
    cases hb
    rw [hc] at hv
    have hclose : ∀ e, closeGroup t.location true e c σ =
        ⟨.afterOperand (.unary .group e t.location), .fresh r.depth, ⟨.closedGroup, c⟩ :: σ⟩ := by
      intro e
      rw [← hc]
      rfl
    refine (tracks_groupedTerm ho hl hn hparen hv hclose).imp ?_
    rintro e r' - - ⟨u, stop, hu, hop, hv⟩
    -- The machine notices only at the next token that the tail of the parentheses is over.
    rw [Sees, run_eq_follow hu, ← step_closedGroup hop c e 0 σ, step_leave hop]
    exact hv
  rw [if_neg hparen]
  by_cases hname : t.kind = .name
  · rw [if_pos hname]
    simp only [beginOperand?, hname] at hb
    cases hb
    exact tracks_opening hn (by simp [hname]) (tracks_pure hv)
  rw [if_neg hname]
  have hrest : t.kind ∈ TokenSet.literal ∪ {.openBracket, .openBrace} := by
    simpa [TokenSet.simpleTerm, hsign, hparen, hname] using ht
  refine tracks_peek_again hn (tracks_expect (fun _ => ?_) fun hk => absurd hrest hk)
  by_cases hbracket : t.kind = .openBracket
  · rw [if_pos hbracket]
    simp only [beginOperand?, hbracket] at hb
    cases hb
    exact tracks_array ho hl hc hn hbracket hv
  rw [if_neg hbracket]
  by_cases hbrace : t.kind = .openBrace
  · rw [if_pos hbrace]
    simp only [beginOperand?, hbrace] at hb
    cases hb
    exact tracks_map ho hl hc hn hbrace hv
  rw [if_neg hbrace]
  refine tracks_value hb ?_ hn hv
  simpa [hbracket, hbrace] using hrest

theorem tracks_subscripted {out : Outcome} (hl : r.left ≤ n) (hc : c.depth = r.depth)
    (hn : r.cursor.next = (.ok t, after)) (ht : t.kind ∈ TokenSet.simpleTerm)
    (hb : beginOperand? c σ t = some out) (hv : v = follow limit t r.cursor after out) :
    Tracks v (subscripted operand) r fun e r' => Sees limit v (c.resume e σ) r' := by
  refine (tracks_simpleTerm ho hl hc hn ht hb hv).bind ?_
  intro e r₁ hd₁ hl₁ hs
  refine tracks_repeated (I := fun e r' => Sees limit v ⟨.afterSimple e, c, σ⟩ r') hs ?_
  intro e r₂ hd₂ hl₂ hs
  refine tracks_check hs rfl (fun t after hn ht => ?_) (fun t after hn ht => ?_)
  · have ht : t.kind = .openBracket := by simpa using ht
    have hv := hs.follow hn
    rw [step_openIndex ht] at hv
    have hle : r₂.left ≤ n := Nat.le_trans hl₂ (Nat.le_trans hl₁ hl)
    refine (tracks_subscript ho hle (hc.trans (hd₂.trans hd₁).symm) hn ht hv).bind ?_
    rintro e' r₃ - - hs'
    refine tracks_pure ⟨?_, nofun⟩
    rintro _ ⟨⟩
    exact hs'
  · refine tracks_pure ⟨nofun, ?_⟩
    rintro _ ⟨⟩
    exact hs.congr hn (step_resume (by simpa using ht) c e σ).symm

end

/-- **The procedure for operands does what the machine does.** -/
theorem takesOperand (limit : Option Nat) (v : Verdict) :
    ∀ n, TakesOperand limit v (operand limit n) n
  | 0 => fun _ _ _ hl => absurd hl (Nat.not_lt_zero _)
  | n + 1 => by
    intro r c σ hl hc hs
    -- The text left bounds the nesting: an operand inside this one begins behind a token of it.
    have ih := takesOperand limit v n
    have hl := Nat.le_of_lt_succ hl
    refine (tracks_peek hs rfl).bind ?_
    rintro t r - - ⟨rfl, after, hn⟩
    refine tracks_expect (fun ht => ?_) (fun ht => ?_)
    · obtain ⟨out, hb⟩ : ∃ out, beginOperand? c σ t = some out :=
        Option.ne_none_iff_exists'.mp fun hnone => beginOperand?_eq_none_iff.mp hnone ht
      -- Inside, the reader is as deep as the chain that the machine is in.
      refine tracks_nested (tracks_checkDepth (fun hadmits => ?_) fun m hm hdeep => ?_)
      · have hv := hs.follow hn
        rw [step_operand (fun m hm => hc ▸ hadmits m hm) hb] at hv
        by_cases hsimple : t.kind ∈ TokenSet.simpleTerm
        · rw [if_pos hsimple]
          exact tracks_subscripted ih (r := { r with depth := r.depth + 1 }) hl hc hn hsimple hb hv
        · have hswitch : t.kind = .openSwitch := by simpa [TokenSet.operand, hsimple] using ht
          rw [if_neg hsimple]
          simp only [beginOperand?, hswitch] at hb
          cases hb
          exact tracks_switch ih (r := { r with depth := r.depth + 1 }) hl hc hn hswitch hv
      · have hv := hs.follow hn
        have hlt : m < c.depth := hc ▸ hdeep
        simp only [step, beginOperand, hb, hm, if_pos hlt] at hv
        exact hv
    · have hv := hs.follow hn
      rw [step_operand_refuse ht] at hv
      exact hv

theorem ending_eq {mode : Mode} {r : Reader} {t : Token} {after : Cursor}
    (hn : r.cursor.next = (.ok t, after)) :
    ending mode r = some (match mode.objection? r.cursor.stream with
      | some x => .error x
      | none => .ok (), r) := by
  cases mode with
  | lenient => rfl
  | strict =>
    have hpeek : Proc.peek r = some (.ok t, r) := by simp only [Proc.peek, Cursor.peek, hn]
    rw [ending, Proc.bind_of_ok hpeek, Proc.expect]
    by_cases ht : t.kind = .endOfInput
    · rw [if_pos (by simpa using ht), Cursor.stream_of_end hn ht]
      rfl
    · rw [if_neg (by simpa using ht), Cursor.stream_of_token hn ht]
      rfl

end Descent

/-- **A parser that counts depth answers as the machine does, and counts down to nothing again.** -/
theorem Resumable.parse_eq {p : Resumable} (hp : p.reader.depth = 0) :
    p.parse = some ((p.reader.cursor.parse p.options).1,
      ⟨⟨(p.reader.cursor.parse p.options).2, 0⟩, p.options⟩) := by
  obtain ⟨⟨c, d⟩, o⟩ := p
  obtain rfl : d = 0 := hp
  have ho := Descent.takesOperand o.limit (run o.limit .initial c c.stream) (c.rest.length + 1)
  obtain ⟨result, ⟨stop, d⟩, hf, rfl, hresult⟩ := Descent.tracks_expression ho
    (r := ⟨c, 0⟩) (σ := []) (Nat.lt_succ_self _) rfl
  rw [Resumable.parse, Descent.root]
  cases result with
  | error x =>
    have hrun : run o.limit .initial c c.stream = .refused x stop := hresult
    rw [Proc.bind_of_error hf]
    simp only [Cursor.parse, hrun]
    rfl
  | ok e =>
    obtain ⟨-, t, after, hn, -, hv⟩ := hresult
    rw [leave, follow] at hv
    rw [Proc.bind_of_ok hf]
    simp only [Cursor.parse, hv]
    cases hobjection : o.mode.objection? stop.stream with
    | none =>
      have hending : Descent.ending o.mode ⟨stop, 0⟩ = some (.ok (), ⟨stop, 0⟩) := by
        rw [Descent.ending_eq hn, hobjection]
      rw [Proc.bind_of_ok hending]
      rfl
    | some x =>
      have hending : Descent.ending o.mode ⟨stop, 0⟩ = some (.error x, ⟨stop, 0⟩) := by
        rw [Descent.ending_eq hn, hobjection]
      rw [Proc.bind_of_error hending]
      rfl

end Parser

end EL
