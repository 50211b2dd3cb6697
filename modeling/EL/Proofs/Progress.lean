import EL.Command.Check
import EL.Parser.Recorded
import EL.Proofs.Descent
import EL.Proofs.Onward

/-!
# Progress of scanning and parsing

A scan ends because every token shortens the text. A parser looks at tokens before it takes them, and
its procedures call one another on what they see, so for a parse this is not enough. What has to be
known of procedures is

> **before a token is taken, they call only procedures of a lower rank** (`Procedure.rank`).

So a procedure that is called again has had a token taken since, however the calls in between went.
The rank is in one place, `keeps_call`: a call is allowed if a token was taken since the innermost
active call, or if its rank is lower (`Stands`). There is one lemma for each procedure, by the lemmas
for those that it calls. Each says as well that the record changes nothing (`Keeps`), that the turns
of its loops take tokens, and how many tokens it has taken at least when it returns.

The budget of the operands is no matter here. `Resumable.parse_eq` knows that it is enough.
-/

set_option autoImplicit false

namespace EL

namespace Parser

/-! ## What a record says -/

namespace Record

/-- No procedure is called while it is active unless a token was taken in between, and every turn of
    a loop takes one. -/
structure Progresses (k : Record) : Prop where
  calls : ∀ x ∈ k.calls, ∀ outer ∈ x.2, outer.procedure = x.1.procedure → outer.taken < x.1.taken
  turns : ∀ x ∈ k.turns, x.1 < x.2

/-- What was taken are the tokens from one place on up to another. -/
def Takes (k : Record) (start here : Cursor) : Prop :=
  ∃ ts, start.Reads ts here ∧ k.answers = ts.map .ok

/-- What was taken are tokens, and no more than one error or end of input behind them. -/
def Stops (k : Record) (start stop : Cursor) : Prop :=
  k.Takes start stop ∨ ∃ ts here, start.Reads ts here ∧ isToken here.next.1 = false ∧
    stop = here.next.2 ∧ k.answers = ts.map .ok ++ [here.next.1]

variable {k : Record} {start here after stop : Cursor} {t : Token}

theorem isToken_ok : isToken (.ok t) = true ↔ t.kind ≠ .endOfInput := by
  simp [isToken]

theorem taken_read (a : Except ParseError Token) :
    (k.read a).taken = k.taken + if isToken a then 1 else 0 := by
  rw [taken, read, List.countP_append, List.countP_singleton]
  rfl

theorem taken_eq {ts : List Token} (h : start.Reads ts here) (hk : k.answers = ts.map .ok) :
    k.taken = ts.length := by
  rw [taken, hk, List.countP_map, List.countP_eq_length]
  exact fun t ht => isToken_ok.mpr (h.kind_ne t ht)

theorem Takes.read (h : k.Takes start here) (hn : here.next = (.ok t, after))
    (ht : t.kind ≠ .endOfInput) : (k.read (.ok t)).Takes start after := by
  obtain ⟨ts, hreads, hk⟩ := h
  refine ⟨ts ++ [t], hreads.append (.cons hn ht (.nil after)), ?_⟩
  rw [Record.read, hk, List.map_append]
  rfl

theorem Takes.stops (h : k.Takes start here) (hn : isToken here.next.1 = false) :
    (k.read here.next.1).Stops start here.next.2 := by
  obtain ⟨ts, hreads, hk⟩ := h
  exact .inr ⟨ts, here, hreads, hn, rfl, by rw [Record.read, hk]⟩

end Record

/-- How far up a procedure is. Before a token is taken, one that is called is below the one that
    calls it. -/
def Procedure.rank : Procedure → Nat
  | list => 9
  | element | index => 8
  | expression => 7
  | term => 6
  | operand => 5
  | subscripted | switch => 4
  | simpleTerm => 3
  | groupedTerm | unary | var | literal => 2
  | array | map | subscript => 1
  | compoundTerm => 0

/-- How the recorded reader stands: at `here`, with a record in order. No call is active that was made
    after the first `b` tokens, and those that were made right behind these are not below `n`. -/
structure Stands (start : Cursor) (b n : Nat) (k : Record) (here : Cursor) : Prop where
  progresses : k.Progresses
  takes : k.Takes start here
  active : ∀ c ∈ k.active, c.taken ≤ b ∧ (c.taken = b → n ≤ c.procedure.rank)
  le : b ≤ k.taken

/-- The recorded action does what the action does. If it fails, the record ends in order; if it does
    not, at least `m` tokens have been taken by then, and the same calls are active as before. -/
def Keeps {α : Type} (start : Cursor) (f : Recorded α) (g : Proc α) (k : Record) (r : Reader)
    (m : Nat) : Prop :=
  ∀ result r', g r = some (result, r') → ∃ k', f k r = some (result, r', k') ∧ k'.Progresses ∧
    match result with
    | .ok _ => k'.Takes start r'.cursor ∧ k'.active = k.active ∧ k.taken ≤ k'.taken ∧ m ≤ k'.taken
    | .error _ => k'.Stops start r'.cursor

section
variable {α β : Type} {start : Cursor} {b n m : Nat} {k : Record} {r : Reader}
  {f : Recorded α} {g : Proc α} {set : TokenSet}

/-! ### Actions one after the other -/

theorem keeps_pure (h : Stands start b n k r.cursor) (hm : m ≤ k.taken) (a : α) :
    Keeps start (pure a) (pure a) k r m := by
  rintro _ _ ⟨⟩
  exact ⟨k, rfl, h.progresses, h.takes, rfl, Nat.le_refl _, hm⟩

theorem keeps_fail (h : Stands start b n k r.cursor) (x : ParseError) :
    Keeps start (Recorded.fail x : Recorded α) (Proc.fail x) k r m := by
  rintro _ _ ⟨⟩
  exact ⟨k, rfl, h.progresses, .inl h.takes⟩

theorem Keeps.mono {m' : Nat} (h : Keeps start f g k r m') (hm : m ≤ m') :
    Keeps start f g k r m := by
  intro result r' hg
  obtain ⟨k', hf, hk', hresult⟩ := h result r' hg
  refine ⟨k', hf, hk', ?_⟩
  cases result with
  | error => exact hresult
  | ok => exact ⟨hresult.1, hresult.2.1, hresult.2.2.1, Nat.le_trans hm hresult.2.2.2⟩

section
variable {f' : α → Recorded β} {g' : α → Proc β} {k₁ : Record} {r₁ : Reader}

theorem keeps_bind_ok {a : α} (hf : f k r = some (.ok a, r₁, k₁)) (hg : g r = some (.ok a, r₁))
    (hactive : k₁.active = k.active) (hle : k.taken ≤ k₁.taken)
    (h : Keeps start (f' a) (g' a) k₁ r₁ m) : Keeps start (f >>= f') (g >>= g') k r m := by
  intro result r' hbind
  obtain ⟨k', hf', hk', hresult⟩ := h result r' ((Proc.bind_of_ok hg).symm.trans hbind)
  refine ⟨k', by simp only [Bind.bind, hf, hf'], hk', ?_⟩
  cases result with
  | error => exact hresult
  | ok =>
    obtain ⟨htakes, hactive', hle', hm⟩ := hresult
    exact ⟨htakes, hactive'.trans hactive, Nat.le_trans hle hle', hm⟩

theorem keeps_bind_error {x : ParseError} (hf : f k r = some (.error x, r₁, k₁))
    (hg : g r = some (.error x, r₁)) (hk₁ : k₁.Progresses) (hstops : k₁.Stops start r₁.cursor) :
    Keeps start (f >>= f') (g >>= g') k r m := by
  intro result r' hbind
  cases (Proc.bind_of_error hg).symm.trans hbind
  exact ⟨k₁, by simp only [Bind.bind, hf], hk₁, hstops⟩

theorem keeps_bind_none (hg : g r = none) : Keeps start (f >>= f') (g >>= g') k r m := by
  intro result r' hbind
  have hnone : (g >>= g') r = none := by simp only [Bind.bind, hg]
  cases hnone.symm.trans hbind

theorem Keeps.bind {m' : Nat} (hk : Stands start b n k r.cursor) (h : Keeps start f g k r m)
    (h' : ∀ a k' r', Stands start b n k' r'.cursor → k.taken ≤ k'.taken → m ≤ k'.taken →
      Keeps start (f' a) (g' a) k' r' m') :
    Keeps start (f >>= f') (g >>= g') k r m' := by
  rcases hg : g r with _ | ⟨x | a, r₁⟩
  · exact keeps_bind_none hg
  · obtain ⟨k₁, hf, hk₁, hstops⟩ := h _ _ hg
    exact keeps_bind_error hf hg hk₁ hstops
  · obtain ⟨k₁, hf, hk₁, htakes, hactive, hle, hm⟩ := h _ _ hg
    have hstands : Stands start b n k₁ r₁.cursor :=
      ⟨hk₁, htakes, hactive ▸ hk.active, Nat.le_trans hk.le hle⟩
    exact keeps_bind_ok hf hg hactive hle (h' a k₁ r₁ hstands hle hm)

/-! ### Looking at tokens -/

/-- A quiet action that leaves the reader where it is leaves the record as it is. -/
theorem keeps_quiet (hk : Stands start b n k r.cursor)
    (hg : ∀ result r', g r = some (result, r') → r' = r)
    (h : ∀ a, g r = some (.ok a, r) → Keeps start (f' a) (g' a) k r m) :
    Keeps start (Recorded.quiet g >>= f') (g >>= g') k r m := by
  rcases hr : g r with _ | ⟨x | a, r₁⟩
  · exact keeps_bind_none hr
  · obtain rfl := hg _ _ hr
    refine keeps_bind_error ?_ hr hk.progresses (.inl hk.takes)
    rw [Recorded.quiet, hr, Option.map_some]
  · obtain rfl := hg _ _ hr
    refine keeps_bind_ok ?_ hr rfl (Nat.le_refl _) (h a hr)
    rw [Recorded.quiet, hr, Option.map_some]

end

theorem keeps_peek {f' : Token → Recorded β} {g' : Token → Proc β}
    (hk : Stands start b n k r.cursor)
    (h : ∀ t after, r.cursor.next = (.ok t, after) → Keeps start (f' t) (g' t) k r m) :
    Keeps start (Recorded.peek >>= f') (Proc.peek >>= g') k r m := by
  refine keeps_quiet hk ?_ fun t ht => ?_
  · rintro _ _ ⟨⟩
    rfl
  · simp only [Proc.peek, Cursor.peek, Option.some.injEq, Prod.mk.injEq, and_true] at ht
    exact h t r.cursor.next.2 (Prod.ext ht rfl)

theorem keeps_check {f' : Bool → Recorded β} {g' : Bool → Proc β}
    (hk : Stands start b n k r.cursor)
    (hyes : ∀ t after, r.cursor.next = (.ok t, after) → t.kind ∈ set →
      Keeps start (f' true) (g' true) k r m)
    (hno : Keeps start (f' false) (g' false) k r m) :
    Keeps start (Recorded.check set >>= f') (Proc.check set >>= g') k r m := by
  have hcheck : Proc.check set r = some (r.cursor.peek.map fun t => decide (t.kind ∈ set), r) := by
    rcases hpeek : r.cursor.peek with x | t
    · exact Proc.bind_of_error (by simp only [Proc.peek, hpeek])
    · exact Proc.bind_of_ok (by simp only [Proc.peek, hpeek])
  refine keeps_quiet hk (fun result r' hg => ?_) fun a ha => ?_
  · cases hcheck.symm.trans hg
    rfl
  · rw [hcheck] at ha
    rcases hpeek : r.cursor.peek with x | t <;> rw [hpeek] at ha <;> cases ha
    dsimp only
    by_cases ht : t.kind ∈ set
    · rw [decide_eq_true ht]
      exact hyes t r.cursor.next.2 (Prod.ext hpeek rfl) ht
    · rw [decide_eq_false ht]
      exact hno

theorem reader_of_expect {t : Token} {r' : Reader} {result : Except ParseError Unit}
    (h : Proc.expect set t r = some (result, r')) : r' = r := by
  unfold Proc.expect at h
  split at h <;> cases h <;> rfl

theorem keeps_expect {f' : Recorded β} {g' : Proc β} {t : Token}
    (hk : Stands start b n k r.cursor)
    (h : t.kind ∈ set → Keeps start f' g' k r m) :
    Keeps start (Recorded.expect set t >>= fun _ => f')
      (Proc.expect set t >>= fun _ => g') k r m := by
  refine keeps_quiet hk (fun _ _ => reader_of_expect) fun _ ht => h ?_
  by_contra hset
  rw [Proc.expect, if_neg hset] at ht
  cases ht

/-! ### Taking tokens -/

/-- After a token that is read, the reader stands behind it. -/
theorem Stands.read {t : Token} {here after : Cursor} (hk : Stands start b n k here)
    (hn : here.next = (.ok t, after)) (ht : t.kind ≠ .endOfInput) :
    Stands start b n (k.read (.ok t)) after ∧ k.taken < (k.read (.ok t)).taken := by
  have hlt : k.taken < (k.read (.ok t)).taken := by
    rw [Record.taken_read, if_pos (Record.isToken_ok.mpr ht)]
    exact Nat.lt_succ_self _
  exact ⟨⟨⟨hk.progresses.calls, hk.progresses.turns⟩, hk.takes.read hn ht, hk.active,
    Nat.le_trans hk.le (Nat.le_of_lt hlt)⟩, hlt⟩

/-- A token that the reader has looked at. -/
theorem keeps_next {f' : Token → Recorded β} {g' : Token → Proc β} {t : Token} {after : Cursor}
    (hk : Stands start b n k r.cursor) (hn : r.cursor.next = (.ok t, after))
    (ht : t.kind ≠ .endOfInput)
    (h : ∀ k' r', Stands start b n k' r'.cursor → k.taken < k'.taken →
      Keeps start (f' t) (g' t) k' r' m) :
    Keeps start (Recorded.next >>= f') (Proc.next >>= g') k r m := by
  obtain ⟨hk', hlt⟩ := hk.read hn ht
  have hnext : Proc.next r = some (.ok t, { r with cursor := after }) := by rw [Proc.next, hn]
  have hrecorded : Recorded.next k r =
      some (.ok t, { r with cursor := after }, k.read (.ok t)) := by rw [Recorded.next, hn]
  exact keeps_bind_ok hrecorded hnext rfl (Nat.le_of_lt hlt) (h _ _ hk' hlt)

/-- A token that must be one of a set. It may turn out to be the end of input, or none at all, and
    then it is the last that is asked for. -/
theorem keeps_take {f' : Token → Recorded β} {g' : Token → Proc β}
    (hk : Stands start b n k r.cursor) (hset : Kind.endOfInput ∉ set)
    (h : ∀ t k' r', Stands start b n k' r'.cursor → k.taken < k'.taken → t.kind ∈ set →
      Keeps start (f' t) (g' t) k' r' m) :
    Keeps start (Recorded.next >>= fun t => Recorded.expect set t >>= fun _ => f' t)
      (Proc.next >>= fun t => Proc.expect set t >>= fun _ => g' t) k r m := by
  have hstops := hk.takes.stops
  rcases hn : r.cursor.next with ⟨a, after⟩
  rw [hn] at hstops
  have hnext : Proc.next r = some (a, { r with cursor := after }) := by rw [Proc.next, hn]
  have hrecorded : Recorded.next k r = some (a, { r with cursor := after }, k.read a) := by
    rw [Recorded.next, hn]
  have hprogresses : (k.read a).Progresses := ⟨hk.progresses.calls, hk.progresses.turns⟩
  rcases a with x | t
  · exact keeps_bind_error hrecorded hnext hprogresses (hstops rfl)
  · by_cases ht : t.kind = .endOfInput
    · have hlast : isToken (.ok t) = false := by simp [isToken, ht]
      have hrefuse : Proc.expect set t { r with cursor := after } =
          some (.error (.expected set t), { r with cursor := after }) := by
        rw [Proc.expect, if_neg (ht ▸ hset)]
        rfl
      have hrecord : Recorded.expect set t (k.read (.ok t)) { r with cursor := after } =
          some (.error (.expected set t), { r with cursor := after }, k.read (.ok t)) := by
        rw [Recorded.expect, Recorded.quiet, hrefuse, Option.map_some]
      have hle : k.taken ≤ (k.read (.ok t)).taken := by
        rw [Record.taken_read]
        exact Nat.le_add_right _ _
      exact keeps_bind_ok hrecorded hnext rfl hle
        (keeps_bind_error hrecord hrefuse hprogresses (hstops hlast))
    · exact keeps_next hk hn ht fun k' r' hk' hlt => keeps_expect hk' (h t k' r' hk' hlt)

/-! ### Calls and loops -/

/-- A call, if the calls that are active allow it. -/
theorem keeps_call {p : Procedure} (hk : Stands start b n k r.cursor)
    (hp : b < k.taken ∨ p.rank < n)
    (h : ∀ k', k'.taken = k.taken → Stands start k.taken p.rank k' r.cursor →
      Keeps start f g k' r m) :
    Keeps start (Recorded.call p f) g k r m := by
  have hactive : ∀ c ∈ k.active, c.taken ≤ k.taken := fun c hc =>
    Nat.le_trans (hk.active c hc).1 hk.le
  have hrank : ∀ c ∈ k.active, c.taken = k.taken → p.rank < c.procedure.rank := by
    intro c hc heq
    obtain ⟨hle, hn⟩ := hk.active c hc
    have hkle := hk.le
    rcases hp with hlt | hlt
    · omega
    · exact Nat.lt_of_lt_of_le hlt (hn (by omega))
  -- A call of `p` that is active at this very token would not be above itself.
  have hprogresses : (k.enter p).Progresses := by
    refine ⟨List.forall_mem_cons.mpr ⟨fun c hc heq => ?_, hk.progresses.calls⟩, hk.progresses.turns⟩
    refine Nat.lt_of_le_of_ne (hactive c hc) fun htaken => ?_
    exact absurd (hrank c hc htaken) (heq ▸ Nat.lt_irrefl _)
  have hstands : Stands start k.taken p.rank (k.enter p) r.cursor := by
    refine ⟨hprogresses, hk.takes, List.forall_mem_cons.mpr ⟨?_, fun c hc => ?_⟩, Nat.le_refl _⟩
    · exact ⟨Nat.le_refl _, fun _ => Nat.le_refl _⟩
    · exact ⟨hactive c hc, fun heq => Nat.le_of_lt (hrank c hc heq)⟩
  intro result r' hg
  obtain ⟨k', hf, hk', hresult⟩ := h (k.enter p) rfl hstands result r' hg
  refine ⟨k.leave k', by rw [Recorded.call, hf, Option.map_some], ⟨hk'.calls, hk'.turns⟩, ?_⟩
  cases result with
  | error => exact hresult
  | ok => exact ⟨hresult.1, rfl, hresult.2.2⟩

theorem keeps_turn (h : Keeps start f g k r (k.taken + 1)) :
    Keeps start (Recorded.turn f) g k r (k.taken + 1) := by
  intro result r' hg
  obtain ⟨k', hf, hk', hresult⟩ := h result r' hg
  cases result with
  | error => exact ⟨k', by rw [Recorded.turn, hf, Option.map_some], hk', hresult⟩
  | ok =>
    refine ⟨k.turned k', by rw [Recorded.turn, hf, Option.map_some], ?_, hresult⟩
    exact ⟨hk'.calls, List.forall_mem_cons.mpr ⟨hresult.2.2.2, hk'.turns⟩⟩

theorem keeps_nested (h : Keeps start f g k { r with depth := r.depth + 1 } m) :
    Keeps start (Recorded.nested f) (Proc.nested g) k r m := by
  intro result r' hg
  obtain ⟨⟨_, r₁⟩, hg', heq⟩ := Option.map_eq_some_iff.mp hg
  cases heq
  obtain ⟨k', hf, hk', hresult⟩ := h _ _ hg'
  exact ⟨k', by rw [Recorded.nested, hf, Option.map_some], hk', hresult⟩

theorem keeps_repeated {body : α → Recorded (α ⊕ β)} {body' : α → Proc (α ⊕ β)}
    (hk : Stands start b n k r.cursor) (a : α)
    (h : ∀ a k' r', Stands start b n k' r'.cursor → k.taken ≤ k'.taken →
      Keeps start (body a) (body' a) k' r' m) :
    Keeps start (Recorded.repeated body a) (Proc.repeated body' a) k r m := by
  have hloop : ∀ i a k' r', Stands start b n k' r'.cursor → k.taken ≤ k'.taken →
      Keeps start (Recorded.loop body i a) (Proc.loop body' i a) k' r' m := by
    intro i
    induction i with
    | zero =>
      rintro a k' r' - - result r'' ⟨⟩
    | succ i ih =>
      intro a k₁ r₁ hk₁ hle
      refine (h a k₁ r₁ hk₁ hle).bind hk₁ fun out k₂ r₂ hk₂ hle' hm => ?_
      cases out with
      | inl a => exact ih a k₂ r₂ hk₂ (Nat.le_trans hle hle')
      | inr c => exact keeps_pure hk₂ hm c
  exact hloop _ a k r hk (Nat.le_refl _)

/-- Where the active calls allow it, the recorded procedure does what the procedure does. If it
    returns, it has taken at least `d` tokens. -/
def Callable (start : Cursor) (p : Procedure) (d : Nat) (f : Recorded α) (g : Proc α) : Prop :=
  ∀ ⦃b n : Nat⦄ ⦃k : Record⦄ ⦃r : Reader⦄, Stands start b n k r.cursor →
    b < k.taken ∨ p.rank < n → Keeps start f g k r (k.taken + d)

/-- Inside of a procedure it is the last one that was called. -/
theorem callable_of_body {p : Procedure} {d : Nat}
    (h : ∀ {k : Record} {r : Reader}, Stands start k.taken p.rank k r.cursor →
      Keeps start f g k r (k.taken + d)) :
    Callable start p d (Recorded.call p f) g := by
  intro b n k r hk hp
  refine keeps_call hk hp fun k' heq hk' => ?_
  rw [← heq] at hk' ⊢
  exact h hk'

end

/-! ## The procedures -/

section
variable {start : Cursor} {operand : Recorded Expr} {operand' : Proc Expr}
  (ho : Callable start .operand 1 operand operand')
include ho

theorem callable_compoundTerm (lhs : Expr) : Callable start .compoundTerm 0
    (Recorded.compoundTerm operand lhs) (Descent.compoundTerm operand' lhs) := by
  refine callable_of_body fun hk => keeps_repeated hk lhs fun lhs k₁ r₁ hk₁ hle => ?_
  refine keeps_check hk₁ (fun t after hn ht => ?_) (keeps_pure hk₁ hle _)
  refine (keeps_turn ?_).mono (Nat.le_succ_of_le hle)
  refine keeps_next hk₁ hn (ne_endOfInput ht rfl) fun k₂ r₂ hk₂ hlt => ?_
  rcases hop : BinaryOp.ofKind? t.kind with _ | op
  · exact keeps_fail hk₂ _
  · refine (ho hk₂ (.inl (Nat.lt_of_le_of_lt hle hlt))).bind hk₂ fun rhs k₃ r₃ hk₃ hle₃ _ => ?_
    exact keeps_pure hk₃ (Nat.le_trans hlt hle₃) _

theorem callable_term : Callable start .term 1 (Recorded.term operand) (Descent.term operand') := by
  refine callable_of_body fun hk => keeps_peek hk fun t after hn => keeps_expect hk fun ht => ?_
  refine (ho hk (.inr (by decide))).bind hk fun lhs k₁ r₁ hk₁ _ hlt => ?_
  exact (callable_compoundTerm ho lhs hk₁ (.inl hlt)).mono hlt

theorem callable_groupedTerm : Callable start .groupedTerm 1 (Recorded.groupedTerm operand)
    (Descent.groupedTerm operand') := by
  refine callable_of_body fun hk => keeps_take hk (by decide) fun t k₁ r₁ hk₁ hlt₁ _ => ?_
  refine (callable_term ho hk₁ (.inl hlt₁)).bind hk₁ fun e k₂ r₂ hk₂ hle₂ _ => ?_
  have hlt₂ := Nat.lt_of_lt_of_le hlt₁ hle₂
  refine keeps_take hk₂ (by decide) fun close k₃ r₃ hk₃ hlt₃ _ => ?_
  have hlt := Nat.lt_trans hlt₂ hlt₃
  exact (callable_compoundTerm ho _ hk₃ (.inl hlt)).mono hlt

theorem callable_expression : Callable start .expression 1 (Recorded.expression operand)
    (Descent.expression operand') := by
  refine callable_of_body fun hk => keeps_check hk (fun _ _ _ _ => ?_) ?_
  · exact callable_groupedTerm ho hk (.inr (by decide))
  · exact callable_term ho hk (.inr (by decide))

theorem callable_element : Callable start .element 1 (Recorded.element operand)
    (Descent.element operand') := by
  refine callable_of_body fun hk => ?_
  refine (callable_expression ho hk (.inr (by decide))).bind hk fun e k₁ r₁ hk₁ _ hlt => ?_
  refine keeps_check hk₁ (fun t after hn ht => ?_) (keeps_pure hk₁ hlt _)
  refine keeps_next hk₁ hn (ne_endOfInput ht rfl) fun k₂ r₂ hk₂ hlt₂ => ?_
  have hlt' := Nat.lt_trans hlt hlt₂
  refine (callable_expression ho hk₂ (.inl hlt')).bind hk₂ fun upper k₃ r₃ hk₃ hle _ => ?_
  exact keeps_pure hk₃ (Nat.le_trans hlt' hle) _

theorem callable_index : Callable start .index 1 (Recorded.index operand)
    (Descent.index operand') := by
  refine callable_of_body fun hk => keeps_check hk (fun t after hn ht => ?_) ?_
  · refine keeps_next hk hn (ne_endOfInput ht rfl) fun k₁ r₁ hk₁ hlt => ?_
    refine (callable_expression ho hk₁ (.inl hlt)).bind hk₁ fun upper k₂ r₂ hk₂ hle _ => ?_
    exact keeps_pure hk₂ (Nat.le_trans hlt hle) _
  · refine (callable_expression ho hk (.inr (by decide))).bind hk fun e k₁ r₁ hk₁ _ hlt => ?_
    refine keeps_check hk₁ (fun t after hn ht => ?_) (keeps_pure hk₁ hlt _)
    refine keeps_next hk₁ hn (ne_endOfInput ht rfl) fun k₂ r₂ hk₂ hlt₂ => ?_
    have hlt' := Nat.lt_trans hlt hlt₂
    refine keeps_check hk₂ (fun _ _ _ _ => ?_) (keeps_pure hk₂ hlt' _)
    refine (callable_expression ho hk₂ (.inl hlt')).bind hk₂ fun upper k₃ r₃ hk₃ hle _ => ?_
    exact keeps_pure hk₃ (Nat.le_trans hlt' hle) _

omit ho in
/-- A list takes the tokens of its items, and may be over at once. -/
theorem callable_list {close : Kind} {p : Procedure} {item : Recorded Expr} {item' : Proc Expr}
    (hclose : close ≠ .endOfInput) (hp : p.rank < Procedure.list.rank)
    (hi : Callable start p 1 item item') :
    Callable start .list 0 (Recorded.list close item) (Descent.list close item') := by
  refine callable_of_body fun hk => keeps_check hk (fun t after hn ht => ?_) ?_
  · have hne : t.kind ≠ .endOfInput := by
      rw [TokenSet.mem_singleton.mp ht]
      exact hclose
    exact keeps_next hk hn hne fun k₁ r₁ hk₁ hlt => keeps_pure hk₁ (Nat.le_of_lt hlt) _
  · refine keeps_repeated hk [] fun done k₁ r₁ hk₁ hle => ?_
    refine (keeps_turn ?_).mono (Nat.le_succ_of_le hle)
    refine (hi hk₁ (.inr hp)).bind hk₁ fun e k₂ r₂ hk₂ _ hlt => ?_
    refine keeps_take hk₂ (by simp [hclose.symm]) fun t k₃ r₃ hk₃ hlt₃ _ => ?_
    have hlt' := Nat.lt_trans hlt hlt₃
    split <;> exact keeps_pure hk₃ hlt' _

theorem callable_subscript (target : Expr) : Callable start .subscript 1
    (Recorded.subscript operand target) (Descent.subscript operand' target) := by
  refine callable_of_body fun hk => keeps_take hk (by decide) fun t k₁ r₁ hk₁ hlt _ => ?_
  refine Keeps.bind hk₁ (callable_list (by decide) (by decide) (callable_index ho) hk₁ (.inl hlt))
    fun es k₂ r₂ hk₂ hle _ => ?_
  exact keeps_pure hk₂ (Nat.le_trans hlt hle) _

theorem callable_array : Callable start .array 1 (Recorded.array operand)
    (Descent.array operand') := by
  refine callable_of_body fun hk => keeps_take hk (by decide) fun t k₁ r₁ hk₁ hlt _ => ?_
  refine Keeps.bind hk₁ (callable_list (by decide) (by decide) (callable_element ho) hk₁ (.inl hlt))
    fun es k₂ r₂ hk₂ hle _ => ?_
  exact keeps_pure hk₂ (Nat.le_trans hlt hle) _

theorem callable_switch : Callable start .switch 1 (Recorded.switch operand)
    (Descent.switch operand') := by
  refine callable_of_body fun hk => keeps_take hk (by decide) fun t k₁ r₁ hk₁ hlt _ => ?_
  refine keeps_peek hk₁ fun first after hn => keeps_expect hk₁ fun _ => ?_
  refine Keeps.bind hk₁
    (callable_list (by decide) (by decide) (callable_expression ho) hk₁ (.inl hlt))
    fun es k₂ r₂ hk₂ hle _ => ?_
  exact keeps_pure hk₂ (Nat.le_trans hlt hle) _

omit ho in
theorem keeps_key {b n : Nat} {k : Record} {r : Reader} (hk : Stands start b n k r.cursor) :
    Keeps start Recorded.key Descent.key k r (k.taken + 1) :=
  keeps_take hk (by decide) fun _ _ _ hk₁ hlt _ => keeps_pure hk₁ hlt _

theorem keeps_entries {b n : Nat} {k : Record} {r : Reader} (hk : Stands start b n k r.cursor)
    (hlt : b < k.taken) :
    Keeps start (Recorded.entries operand) (Descent.entries operand') k r k.taken := by
  refine keeps_check hk (fun t after hn ht => ?_) ?_
  · exact keeps_next hk hn (ne_endOfInput ht rfl) fun k₁ r₁ hk₁ hlt =>
      keeps_pure hk₁ (Nat.le_of_lt hlt) _
  · refine keeps_repeated hk [] fun m k₁ r₁ hk₁ hle => ?_
    refine (keeps_turn ?_).mono (Nat.le_succ_of_le hle)
    refine (keeps_key hk₁).bind hk₁ fun key k₂ r₂ hk₂ _ hlt₂ => ?_
    refine keeps_take hk₂ (by decide) fun colon k₃ r₃ hk₃ hlt₃ _ => ?_
    have hlt₃' := Nat.lt_trans hlt₂ hlt₃
    have hb : b < k₃.taken := Nat.lt_trans (Nat.lt_of_lt_of_le hlt hle) hlt₃'
    refine (callable_expression ho hk₃ (.inl hb)).bind hk₃ fun e k₄ r₄ hk₄ hle₄ _ => ?_
    refine keeps_take hk₄ (by decide) fun t k₅ r₅ hk₅ hlt₅ _ => ?_
    have hlt₅' := Nat.lt_trans (Nat.lt_of_lt_of_le hlt₃' hle₄) hlt₅
    split <;> exact keeps_pure hk₅ hlt₅' _

theorem callable_map : Callable start .map 1 (Recorded.map operand) (Descent.map operand') := by
  refine callable_of_body fun hk => keeps_take hk (by decide) fun t k₁ r₁ hk₁ hlt _ => ?_
  refine (keeps_entries ho hk₁ hlt).bind hk₁ fun m k₂ r₂ hk₂ hle _ => ?_
  exact keeps_pure hk₂ (Nat.le_trans hlt hle) _

omit ho in
/-- The value of a literal is had from its token, and nothing is read for it. -/
theorem value_eq (t : Token) :
    (∃ v, Descent.value t = pure v) ∨ ∃ x, Descent.value t = Proc.fail x := by
  unfold Descent.value
  split
  case h_2 =>
    split
    · exact .inl ⟨_, rfl⟩
    · exact .inr ⟨_, rfl⟩
  all_goals exact .inl ⟨_, rfl⟩

omit ho in
theorem reader_of_value {t : Token} {r r' : Reader} {result : Except ParseError Literal}
    (h : Descent.value t r = some (result, r')) : r' = r := by
  rcases value_eq t with ⟨v, hv⟩ | ⟨x, hv⟩ <;> rw [hv] at h <;> cases h <;> rfl

theorem callable_literal : Callable start .literal 1 (Recorded.literal operand)
    (Descent.literal operand') := by
  refine callable_of_body fun hk => keeps_peek hk fun t after hn => keeps_expect hk fun ht => ?_
  split
  · exact callable_array ho hk (.inr (by decide))
  · split
    · exact callable_map ho hk (.inr (by decide))
    · refine keeps_quiet hk (fun _ _ => reader_of_value) fun v _ => ?_
      exact keeps_next hk hn (ne_endOfInput ht rfl) fun k₁ r₁ hk₁ hlt => keeps_pure hk₁ hlt _

omit ho in
theorem callable_var : Callable start .var 1 Recorded.var Descent.var :=
  callable_of_body fun hk => keeps_take hk (by decide) fun _ _ _ hk₁ hlt _ => keeps_pure hk₁ hlt _

theorem callable_unary : Callable start .unary 1 (Recorded.unary operand)
    (Descent.unary operand') := by
  refine callable_of_body fun hk => keeps_take hk (by decide) fun t k₁ r₁ hk₁ hlt _ => ?_
  rcases hop : UnaryOp.ofKind? t.kind with _ | op
  · exact keeps_fail hk₁ _
  · refine (ho hk₁ (.inl hlt)).bind hk₁ fun e k₂ r₂ hk₂ hle _ => ?_
    exact keeps_pure hk₂ (Nat.le_trans hlt hle) _

theorem callable_simpleTerm : Callable start .simpleTerm 1 (Recorded.simpleTerm operand)
    (Descent.simpleTerm operand') := by
  refine callable_of_body fun hk => keeps_peek hk fun t after hn => keeps_expect hk fun _ => ?_
  split
  · exact callable_unary ho hk (.inr (by decide))
  · split
    · exact callable_groupedTerm ho hk (.inr (by decide))
    · split
      · exact callable_var hk (.inr (by decide))
      · exact callable_literal ho hk (.inr (by decide))

theorem callable_subscripted : Callable start .subscripted 1 (Recorded.subscripted operand)
    (Descent.subscripted operand') := by
  refine callable_of_body fun hk => ?_
  refine (callable_simpleTerm ho hk (.inr (by decide))).bind hk fun e k₁ r₁ hk₁ _ hlt => ?_
  refine keeps_repeated hk₁ e fun e k₂ r₂ hk₂ hle => ?_
  have hlt₂ := Nat.lt_of_lt_of_le hlt hle
  refine keeps_check hk₂ (fun _ _ _ _ => ?_) (keeps_pure hk₂ hlt₂ _)
  refine (keeps_turn ?_).mono (Nat.le_succ_of_le hlt₂)
  refine (callable_subscript ho e hk₂ (.inl hlt₂)).bind hk₂ fun e' k₃ r₃ hk₃ _ hlt₃ => ?_
  exact keeps_pure hk₃ hlt₃ _

end

/-- **The recursion goes down**: the operands in an operand are called behind a token of it. -/
theorem callable_operand (start : Cursor) (limit : Option Nat) (i : Nat) :
    Callable start .operand 1 (Recorded.operand limit i) (Descent.operand limit i) := by
  induction i with
  | zero =>
    intro b n k r _ _ result r' hnone
    cases hnone
  | succ i ih =>
    refine callable_of_body fun hk => keeps_peek hk fun t after hn => keeps_expect hk fun _ => ?_
    refine keeps_nested (keeps_quiet hk (fun result r' h => ?_) fun _ _ => ?_)
    · unfold Proc.checkDepth at h
      split at h
      · split at h <;> cases h <;> rfl
      · cases h
        rfl
    · split
      · exact callable_subscripted ih hk (.inr (by decide))
      · exact callable_switch ih hk (.inr (by decide))

theorem reader_of_ending (mode : Mode) {r r' : Reader} {result : Except ParseError Unit}
    (h : Descent.ending mode r = some (result, r')) : r' = r := by
  cases mode with
  | lenient =>
    cases h
    rfl
  | strict =>
    rcases hpeek : r.cursor.peek with x | t
    · have hfail : Proc.peek r = some (.error x, r) := by simp only [Proc.peek, hpeek]
      cases (Proc.bind_of_error hfail).symm.trans h
      rfl
    · have hok : Proc.peek r = some (.ok t, r) := by simp only [Proc.peek, hpeek]
      exact reader_of_expect ((Proc.bind_of_ok hok).symm.trans h)

theorem keeps_root (start : Cursor) (o : ParseOptions) :
    Keeps start (Recorded.root o) (Descent.root o) {} ⟨start, 0⟩ 1 := by
  have hk : Stands start 0 10 {} (Reader.mk start 0).cursor :=
    ⟨⟨List.forall_mem_nil _, List.forall_mem_nil _⟩, ⟨[], .nil start, rfl⟩, List.forall_mem_nil _,
      Nat.le_refl _⟩
  have hexpression := callable_expression (callable_operand start o.limit (start.rest.length + 1))
  have hbody := (hexpression hk (.inr (by decide))).bind hk
    fun e k₁ r₁ (hk₁ : Stands start 0 10 k₁ r₁.cursor) _ hlt =>
      keeps_quiet hk₁ (fun _ _ => reader_of_ending o.mode) fun _ _ => keeps_pure hk₁ hlt e
  intro result r' hg
  exact hbody result r' hg

/-- **The record changes no answer**: recorded or not, the answer is the parser's, at the same place. -/
theorem Recorded.root_eq (c : Cursor) (o : ParseOptions) : ∃ answer k,
    (c.parse o).1 = answer.mapError (·.attachPath o.path) ∧
    Descent.root o ⟨c, 0⟩ = some (answer, ⟨(c.parse o).2, 0⟩) ∧
    Recorded.root o {} ⟨c, 0⟩ = some (answer, ⟨(c.parse o).2, 0⟩, k) ∧ k.Progresses ∧
    match answer with
    | .ok _ => k.Takes c (c.parse o).2 ∧ 1 ≤ k.taken
    | .error _ => k.Stops c (c.parse o).2 := by
  have hparse := Resumable.parse_eq (p := ⟨⟨c, 0⟩, o⟩) rfl
  obtain ⟨⟨answer, r'⟩, hroot, heq⟩ := Option.map_eq_some_iff.mp hparse
  obtain ⟨hanswer, hreader⟩ := Prod.mk.inj heq
  obtain rfl : r' = ⟨(c.parse o).2, 0⟩ := congrArg Resumable.reader hreader
  obtain ⟨k, hrecorded, hk, hresult⟩ := keeps_root c o answer _ hroot
  refine ⟨answer, k, hanswer.symm, hroot, hrecorded, hk, ?_⟩
  cases answer with
  | error => exact hresult
  | ok => exact ⟨hresult.1, hresult.2.2.2⟩

end Parser

namespace Cursor

/-- How many tokens the text has from here on, as far as it can be read. -/
def tokenCount (c : Cursor) : Nat := c.stream.tokens.countP fun t => t.kind ≠ .endOfInput

theorem tokenCount_le (c : Cursor) : c.tokenCount ≤ c.rest.length := by
  rcases hn : c.next with ⟨x | t, after⟩
  · rw [tokenCount, stream_of_error hn]
    exact Nat.zero_le _
  · by_cases ht : t.kind = .endOfInput
    · rw [tokenCount, stream_of_end hn ht]
      simp [Stream.tokens, ht]
    · have hlt := length_rest_next_lt hn ht
      have ih := tokenCount_le after
      rw [tokenCount, stream_of_token hn ht, Stream.tokens,
        List.countP_cons_of_pos (by simpa using ht)]
      exact Nat.le_trans (Nat.succ_le_succ ih) hlt
termination_by c.rest.length

variable {c stop : Cursor} {ts : List Token}

theorem Reads.length_le_tokenCount (h : c.Reads ts stop) : ts.length ≤ c.tokenCount := by
  have hts : ts.countP (fun t => t.kind ≠ .endOfInput) = ts.length :=
    List.countP_eq_length.mpr fun t ht => by simpa using h.kind_ne t ht
  rw [tokenCount, h.stream.1, List.countP_append, hts]
  exact Nat.le_add_right _ _

theorem length_of_tokens (h : c.tokens = .ok ts) : ts.length = c.tokenCount + 1 := by
  obtain ⟨us, last, rfl, hlast, hus⟩ := c.tokens_eq_ok h
  have hcount : us.countP (fun t => t.kind ≠ .endOfInput) = us.length :=
    List.countP_eq_length.mpr fun t ht => by simpa using hus t ht
  have htokens : c.stream.tokens = us ++ [last] := by
    unfold Cursor.tokens at h
    split at h
    · cases h
    · exact Except.ok.inj h
  rw [tokenCount, htokens, List.countP_append, hcount, List.length_append]
  simp [hlast]

/-- Tokens have characters. -/
theorem Reads.offset_lt (h : c.Reads ts stop) (hts : ts ≠ []) : c.offset < stop.offset := by
  refine h.onward.offset_lt ?_
  cases h with
  | nil => exact absurd rfl hts
  | cons hn ht hrest => exact Nat.lt_of_le_of_lt hrest.length_le (length_rest_next_lt hn ht)

end Cursor

theorem length_le_byteLength (cs : List Char) : cs.length ≤ byteLength cs := by
  induction cs with
  | nil => exact Nat.le_refl _
  | cons c cs ih =>
    have := c.utf8Size_pos
    rw [List.length_cons, byteLength_cons]
    omega

namespace Parser.Record

variable {k : Record} {start here stop : Cursor}

theorem Takes.length_le (h : k.Takes start here) : k.answers.length ≤ start.tokenCount := by
  obtain ⟨ts, hreads, hk⟩ := h
  rw [hk, List.length_map]
  exact hreads.length_le_tokenCount

theorem Stops.length_le (h : k.Stops start stop) : k.answers.length ≤ start.tokenCount + 1 := by
  rcases h with h | ⟨ts, here, hreads, -, -, hk⟩
  · exact Nat.le_succ_of_le h.length_le
  · rw [hk, List.length_append, List.length_map]
    exact Nat.succ_le_succ hreads.length_le_tokenCount

theorem Takes.offset_lt (h : k.Takes start here) (hk : 1 ≤ k.taken) :
    start.offset < here.offset := by
  obtain ⟨ts, hreads, hanswers⟩ := h
  refine hreads.offset_lt fun hnil => ?_
  rw [taken_eq hreads hanswers, hnil] at hk
  exact absurd hk (by decide)

end Parser.Record

/-- **Scanning and parsing come to an end, and go on to it.** A token that is read moves the cursor. A
    listing of tokens has no more of them than the text has bytes, and the end of input. Whatever the
    mode and the limit, a parse ends with a record in which no procedure is called while it is active
    unless a token was taken in between, and every turn of a loop takes one. It asks for no more
    tokens than the text has, and one more at most; and if it succeeds, it has taken one. -/
theorem reading_progresses :
    (∀ (c after : Cursor) (t : Token), c.next = (.ok t, after) → t.kind ≠ .endOfInput →
      c.offset < after.offset ∧ after.rest.length < c.rest.length) ∧
    (∀ text : String, (Cursor.ofText text).tokenCount ≤ text.utf8ByteSize ∧
      ∀ lines, Command.listTokens text = .ok lines →
        lines.length = (Cursor.ofText text).tokenCount + 1) ∧
    ∀ (c : Cursor) (o : ParseOptions), ∃ answer k,
      (c.parse o).1 = answer.mapError (·.attachPath o.path) ∧
      Parser.Descent.root o ⟨c, 0⟩ = some (answer, ⟨(c.parse o).2, 0⟩) ∧
      Parser.Recorded.root o {} ⟨c, 0⟩ = some (answer, ⟨(c.parse o).2, 0⟩, k) ∧
      k.Progresses ∧ k.Stops c (c.parse o).2 ∧ k.answers.length ≤ c.tokenCount + 1 ∧
      ∀ e, (c.parse o).1 = .ok e →
        k.Takes c (c.parse o).2 ∧ 1 ≤ k.taken ∧ c.offset < (c.parse o).2.offset := by
  refine ⟨fun c after t hn ht => ?_, fun text => ⟨?_, fun lines h => ?_⟩, fun c o => ?_⟩
  · have hreads : c.Reads [t] after := .cons hn ht (.nil after)
    exact ⟨hreads.offset_lt (List.cons_ne_nil t []), Cursor.length_rest_next_lt hn ht⟩
  · rw [← byteLength_toList]
    exact Nat.le_trans (Cursor.tokenCount_le _) (length_le_byteLength text.toList)
  · unfold Command.listTokens at h
    split at h
    · cases h
    · rename_i ts hts
      cases h
      rw [List.length_map, Cursor.length_of_tokens hts]
  · obtain ⟨answer, k, hanswer, hroot, hrecorded, hk, hresult⟩ := Parser.Recorded.root_eq c o
    refine ⟨answer, k, hanswer, hroot, hrecorded, hk, ?_⟩
    cases answer with
    | error x =>
      refine ⟨hresult, hresult.length_le, fun e he => ?_⟩
      cases hanswer.symm.trans he
    | ok =>
      obtain ⟨htakes, htaken⟩ := hresult
      exact ⟨.inl htakes, Nat.le_succ_of_le htakes.length_le, fun _ _ =>
        ⟨htakes, htaken, htakes.offset_lt htaken⟩⟩

theorem reading_progresses_name :
    ∃ (t : Token) (after : Cursor) (lines : List String) (e : Expr) (k : Parser.Record),
    (Cursor.ofText "a").next = (.ok t, after) ∧ (Cursor.ofText "a").offset < after.offset ∧
    Command.listTokens "a" = .ok lines ∧ lines.length = (Cursor.ofText "a").tokenCount + 1 ∧
    (Cursor.ofText "a").tokenCount ≤ 1 ∧
    ((Cursor.ofText "a").parse {}).1 = .ok e ∧ k.Progresses ∧
    k.Takes (Cursor.ofText "a") ((Cursor.ofText "a").parse {}).2 ∧ k.answers.length ≤ 2 := by
  have hnext : (Cursor.ofText "a").next = (.ok ⟨.name, "a", ⟨0, ⟨1, 1⟩⟩⟩, ⟨[], ⟨1, ⟨1, 2⟩⟩⟩) := rfl
  have haccepts : Parser.Accepts none .initial (Cursor.ofText "a") _ _ _ _ _ :=
    ⟨.cons hnext (by decide) (.nil _), rfl, _, rfl, rfl⟩
  have htree : ((Cursor.ofText "a").parse {}).1 = .ok (.var "a" ⟨1, 1⟩) := by
    rw [haccepts.parse_strict none]
    rfl
  have htokens : (Cursor.ofText "a").tokens =
      .ok [⟨.name, "a", ⟨0, ⟨1, 1⟩⟩⟩, ⟨.endOfInput, "", ⟨1, ⟨1, 2⟩⟩⟩] :=
    Cursor.tokens_of_scanWithin 3 rfl
  obtain ⟨lines, hlines⟩ : ∃ lines, Command.listTokens "a" = .ok lines :=
    ⟨_, by rw [Command.listTokens, htokens]⟩
  obtain ⟨hnexts, htexts, hparses⟩ := reading_progresses
  obtain ⟨hbytes, hlisting⟩ := htexts "a"
  obtain ⟨_, k, _, _, _, hk, _, hanswers, hsuccess⟩ := hparses (Cursor.ofText "a") {}
  exact ⟨_, _, _, _, k, hnext, (hnexts _ _ _ hnext (by decide)).1, hlines, hlisting _ hlines,
    hbytes, htree, hk, (hsuccess _ htree).1, Nat.le_trans hanswers (Nat.succ_le_succ hbytes)⟩

end EL
