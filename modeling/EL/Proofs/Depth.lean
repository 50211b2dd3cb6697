import EL.Proofs.Onward

/-!
# What a limit on the depth does

A limit is looked at in one place: where an operand begins (`limited_step`). There a step either takes
no notice of it or refuses the token for its depth. So **a limit is a threshold and nothing else**
(`parse_limit`). What a parse makes of a text without coming up against a limit, it makes of it with
any higher limit and with none. A parse that does come up against one has gone as far as any other
would have, so that with a higher limit nothing goes wrong earlier.

How deep can an operand be? A step begins at most one operand, inside those that are open, so after
some tokens no operand is open at a greater depth than there were tokens (`State.Shallow`). **A limit
that is no less than the number of tokens is never reached.**
-/

set_option autoImplicit false

namespace EL

namespace Parser

/-- The depth of the operand that the next token may begin. -/
def State.reach (s : State) : Nat :=
  match s.goal with
  | .expression | .operand => s.chain.depth
  | _ => s.chain.depth + 1

/-! ## Where the limit is looked at -/

section
variable {c : Chain} {σ : List Frame} {t : Token} {f : Option Nat → Outcome} {d n : Nat}
  {limit m : Option Nat}

/-- A part of a step that knows no limit, or begins an operand at the depth `d`. -/
def Limited (d : Nat) (t : Token) (f : Option Nat → Outcome) : Prop :=
  (∃ out, ∀ limit, f limit = out) ∨
    ∃ c σ, c.depth = d ∧ ∀ limit, f limit = beginOperand limit c σ t

theorem Limited.const (out : Outcome) : Limited d t fun _ => out := .inl ⟨out, fun _ => rfl⟩

theorem limited_beginOperand (c : Chain) (σ : List Frame) (t : Token) :
    Limited c.depth t fun limit => beginOperand limit c σ t := .inr ⟨c, σ, rfl, fun _ => rfl⟩

theorem limited_beginExpression (c : Chain) (σ : List Frame) (t : Token) :
    Limited c.depth t fun limit => beginExpression limit c σ t := by
  unfold beginExpression
  split
  · exact .const _
  · exact limited_beginOperand c σ t

theorem limited_beginItem (l : Listing) (c : Chain) (σ : List Frame) (t : Token) :
    Limited (c.depth + 1) t fun limit => beginItem limit l c σ t := by
  unfold beginItem
  split
  · exact .const _
  · exact limited_beginExpression (.fresh c.depth) _ t

/-- **A step looks at the limit where it begins an operand, and nowhere else.** -/
theorem limited_step (s : State) (t : Token) : Limited s.reach t fun limit => step limit s t := by
  obtain ⟨goal, c, σ⟩ := s
  unfold step State.reach
  cases goal with
  | expression => exact limited_beginExpression c σ t
  | operand => exact limited_beginOperand c σ t
  | afterSimple | afterOperand | key | colon => exact .const _
  | firstItem l =>
    dsimp only
    split
    · exact .const _
    · split
      · split
        · exact limited_beginItem l c σ t
        · exact .const _
      · exact limited_beginItem l c σ t
  | item l => exact limited_beginItem l c σ t
  | upperBound l e loc =>
    dsimp only
    split
    · exact limited_beginExpression (.fresh c.depth) _ t
    · exact .const _
  | firstKey =>
    dsimp only
    split
    · exact .const _
    · exact .const _

end

/-! ## One step under two limits -/

namespace Limited

variable {d n : Nat} {t : Token} {f : Option Nat → Outcome} {limit m : Option Nat}

theorem le (hf : Limited d t f) (h : ∀ k ∈ m, n ≤ k) :
    f (some n) = f m ∨ f (some n) = .refuse (.tooDeep n) false := by
  obtain ⟨out, hout⟩ | ⟨c, σ, -, hbegin⟩ := hf
  · exact .inl ((hout (some n)).trans (hout m).symm)
  · rw [hbegin, hbegin]
    unfold beginOperand
    split
    · exact .inl rfl
    · by_cases hn : n < c.depth
      · exact .inr (if_pos hn)
      · refine .inl ((if_neg hn).trans ?_)
        cases m with
        | none => rfl
        | some k =>
          have hk : n ≤ k := h k rfl
          exact (if_neg (by omega)).symm

theorem of_depth_le (hf : Limited d t f) (h : d ≤ n) : f (some n) = f none := by
  obtain ⟨out, hout⟩ | ⟨c, σ, hdepth, hbegin⟩ := hf
  · exact (hout (some n)).trans (hout none).symm
  · rw [hbegin, hbegin]
    unfold beginOperand
    split
    · rfl
    · exact if_neg (by omega)

theorem accept {e : Expr} (hf : Limited d t f) (h : f limit = .accept e) : f m = .accept e := by
  obtain ⟨out, hout⟩ | ⟨c, σ, -, hbegin⟩ := hf
  · exact ((hout m).trans (hout limit).symm).trans h
  · rw [hbegin] at h
    exact absurd h beginOperand_ne_accept

end Limited

section
variable {s s' : State} {t : Token} {n : Nat} {limit m : Option Nat}

/-- A step that does not come up against a limit is the same under any higher one. -/
theorem step_le (h : ∀ k ∈ m, n ≤ k) (s : State) (t : Token) :
    step (some n) s t = step m s t ∨ step (some n) s t = .refuse (.tooDeep n) false :=
  (limited_step s t).le h

/-- A limit that the next operand keeps to is none for the next token. -/
theorem step_of_reach_le (h : s.reach ≤ n) : step (some n) s t = step none s t :=
  (limited_step s t).of_depth_le h

/-- Where an expression ends, no operand begins. -/
theorem step_accept_limit {e : Expr} (h : step limit s t = .accept e) : step m s t = .accept e :=
  (limited_step s t).accept h

/-! ## One run under two limits -/

theorem shifts?_le (h : ∀ k ∈ m, n ≤ k) {ts : List Token} (hs : shifts? (some n) s ts = some s') :
    shifts? m s ts = some s' := by
  induction ts generalizing s with
  | nil => exact hs
  | cons t ts ih =>
    rw [shifts?] at hs
    split at hs
    · rename_i s₁ hs₁
      rcases step_le h s t with heq | htooDeep
      · rw [shifts?_cons (heq.symm.trans hs₁)]
        exact ih hs
      · rw [htooDeep] at hs₁
        cases hs₁
    · cases hs

/-- **A run is the same under a higher limit, or it has come up against its own.** It is then refused
    behind a passage that is shifted under the higher limit as well. -/
theorem run_le (h : ∀ k ∈ m, n ≤ k) (s : State) (c : Cursor) :
    run (some n) s c c.stream = run m s c c.stream ∨
      ∃ ts here t after, Refuses (some n) s c (.tooDeep n) false ts here t after ∧
        ∃ s', shifts? m s ts = some s' := by
  cases run_ends (some n) s c with
  | accepts ha =>
    obtain ⟨s', hs, haccept⟩ := ha.step
    have ha' : Accepts m s c _ _ _ _ _ :=
      ⟨ha.reads, ha.next, s', shifts?_le h hs, step_accept_limit haccept⟩
    exact .inl (ha.run.trans ha'.run.symm)
  | breaks hb =>
    have hb' : Breaks m s c _ _ _ _ _ := ⟨hb.reads, hb.next, shifts?_le h hb.shifts⟩
    exact .inl (hb.run.trans hb'.run.symm)
  | refuses hr =>
    obtain ⟨s', hs, hrefuse⟩ := hr.step
    rcases step_le h s' _ with heq | htooDeep
    · have hr' : Refuses m s c _ _ _ _ _ _ :=
        ⟨hr.reads, hr.next, s', shifts?_le h hs, heq.symm.trans hrefuse⟩
      exact .inl (hr.run.trans hr'.run.symm)
    · exact .inr ⟨_, _, _, _, ⟨hr.reads, hr.next, s', hs, htooDeep⟩, s', shifts?_le h hs⟩

end

theorem parse_congr {c : Cursor} {limit m : Option Nat}
    (h : run limit .initial c c.stream = run m .initial c c.stream) (mode : Mode)
    (path : Option String) : c.parse ⟨mode, path, limit⟩ = c.parse ⟨mode, path, m⟩ := by
  rw [Cursor.parse, Cursor.parse, h]

/-! ## How deep an operand can be -/

/-- Is every chain that a bracket interrupts at a depth of no more than `k`? -/
def Below (k : Nat) (σ : List Frame) : Prop := ∀ f ∈ σ, f.outer.depth ≤ k

/-- No operand is open, nor can the next token begin one, at a greater depth than there have been
    tokens: so many, and the next. -/
structure State.Shallow (k : Nat) (s : State) : Prop where
  reach : s.reach ≤ k + 1
  stack : Below k s.stack

/-- Does a token lead to a state like that, if it leads to any? -/
def Outcome.Shallow (k : Nat) : Outcome → Prop
  | .shift s => s.Shallow k
  | _ => True

theorem State.shallow_initial : State.initial.Shallow 0 := ⟨Nat.le_refl 1, nofun⟩

section
variable {k : Nat} {limit : Option Nat} {c : Chain} {σ : List Frame} {t : Token} {s : State}
  {e : Expr} {l : Listing}

theorem Below.push (hc : c.depth ≤ k) (hσ : Below k σ) (b : Bracket) : Below k (⟨b, c⟩ :: σ) :=
  List.forall_mem_cons.mpr ⟨hc, hσ⟩

theorem Below.succ (hσ : Below k σ) : Below (k + 1) σ := fun f hf => Nat.le_succ_of_le (hσ f hf)

theorem Chain.base_lt_depth (c : Chain) : c.base < c.depth := by
  unfold depth
  omega

/-! A part of a step knows that the chain is at a depth of no more than `k`, where it begins an
operand, and of less than `k` everywhere else. -/

theorem Opening.shallow (h : Opening c σ t s) (hc : c.depth ≤ k) (hσ : Below k σ) :
    s.Shallow k := by
  have hreach : c.depth + 1 ≤ k + 1 := Nat.succ_le_succ hc
  cases h with
  | atom | array | switch | map => exact ⟨hreach, hσ⟩
  | sign => exact ⟨hreach, hσ⟩
  | parens => exact ⟨hreach, hσ.push hc _⟩

theorem shallow_beginOperand (hc : c.depth ≤ k) (hσ : Below k σ) :
    (beginOperand limit c σ t).Shallow k := by
  unfold beginOperand
  split
  · trivial
  · rename_i out hout
    have hopen : out.Shallow k := by
      cases out with
      | shift s => exact (opening_of_beginOperand? hout).shallow hc hσ
      | accept | refuse => trivial
    split
    · split
      · trivial
      · exact hopen
    · exact hopen

theorem shallow_beginExpression (hc : c.depth ≤ k) (hσ : Below k σ) :
    (beginExpression limit c σ t).Shallow k := by
  unfold beginExpression
  split
  · have hbase := c.base_lt_depth
    refine ⟨?_, hσ.push hc _⟩
    show c.base + 1 ≤ k + 1
    omega
  · exact shallow_beginOperand hc hσ

theorem shallow_beginItem (hc : c.depth < k) (hσ : Below k σ) :
    (beginItem limit l c σ t).Shallow k := by
  have hpush := hσ.push (Nat.le_of_lt hc)
  unfold beginItem
  split
  · exact ⟨Nat.le_succ_of_le hc, hpush _⟩
  · exact shallow_beginExpression hc (hpush _)

theorem shallow_closeList (hc : c.depth < k) (hσ : Below k σ) : (closeList l c σ).Shallow k := by
  have hreach : c.depth + 1 ≤ k + 1 := Nat.le_succ_of_le hc
  unfold closeList
  split
  · exact ⟨hreach, hσ⟩
  · exact ⟨hreach, hσ⟩
  · have hbase := c.base_lt_depth
    dsimp only
    split
    · refine ⟨?_, hσ⟩
      show c.base + 1 + 1 ≤ k + 1
      omega
    · -- The sign is complete with the switch, and its operand is closed.
      rename_i signs hsigns
      refine ⟨?_, hσ⟩
      have hdepth : c.depth = c.base + (signs.length + 1) + 1 := by
        rw [Chain.depth, hsigns, List.length_cons]
      show c.base + signs.length + 1 + 1 ≤ k + 1
      omega

theorem shallow_separate (hc : c.depth < k) (hσ : Below k σ) : (separate l c σ t).Shallow k := by
  unfold separate
  split
  · exact ⟨Nat.le_succ_of_le hc, hσ⟩
  · split
    · exact shallow_closeList hc hσ
    · trivial

theorem shallow_endItem {bound : Bound} (hc : c.depth < k) (hσ : Below k σ) :
    (endItem l bound e c σ t).Shallow k := by
  unfold endItem
  split
  · exact ⟨Nat.le_succ_of_le hc, hσ.push (Nat.le_of_lt hc) _⟩
  · exact ⟨Nat.le_succ_of_le hc, hσ⟩
  · exact shallow_separate hc hσ

theorem shallow_readKey {m : Entries} (hc : c.depth < k) (hσ : Below k σ) :
    (readKey m c σ t).Shallow k := by
  unfold readKey
  split
  · exact ⟨Nat.le_succ_of_le hc, hσ⟩
  · exact ⟨Nat.le_succ_of_le hc, hσ⟩
  · trivial

theorem shallow_endValue {m : Entries} {key : String} (hc : c.depth < k) (hσ : Below k σ) :
    (endValue m key e c σ t).Shallow k := by
  unfold endValue
  dsimp only
  split
  · exact ⟨Nat.le_succ_of_le hc, hσ⟩
  · exact ⟨Nat.le_succ_of_le hc, hσ⟩
  · trivial

theorem shallow_closeGroup {loc : Location} {asOperand : Bool} (hc : c.depth < k)
    (hσ : Below k σ) : (closeGroup loc asOperand e c σ).Shallow k := by
  unfold closeGroup
  dsimp only
  split
  · exact ⟨Nat.succ_le_succ hc, hσ.push (Nat.le_of_lt hc) _⟩
  · exact ⟨Nat.le_succ_of_le hc, hσ⟩

/-- What stands in a bracket is over, and the chain that the bracket interrupts is less deep. -/
theorem shallow_leave (t : Token) : ∀ (σ : List Frame) (e : Expr), Below k σ →
    (leave t e σ).Shallow (k + 1)
  | [], _, _ => trivial
  | ⟨b, outer⟩ :: σ, e, h => by
    obtain ⟨houter, hσ⟩ := List.forall_mem_cons.mp h
    have hc : outer.depth < k + 1 := Nat.lt_succ_of_le houter
    cases b with
    | closedGroup =>
      rw [leave]
      split
      · exact ⟨Nat.le_succ_of_le hc, Below.succ hσ⟩
      · exact shallow_leave t σ _ hσ
    | group loc asOperand =>
      rw [leave]
      split
      · exact shallow_closeGroup hc (Below.succ hσ)
      · trivial
    | item l bound => exact shallow_endItem hc (Below.succ hσ)
    | value m key => exact shallow_endValue hc (Below.succ hσ)

theorem shallow_afterOperand (hc : c.depth < k + 1) (hσ : Below k σ) :
    (afterOperand e c σ t).Shallow (k + 1) := by
  unfold afterOperand
  split
  · exact ⟨Nat.le_succ_of_le (Nat.le_of_lt hc), hσ.succ⟩
  · exact shallow_leave t σ e hσ

theorem shallow_afterSimple (hc : c.depth < k + 1) (hσ : Below k σ) :
    (afterSimple e c σ t).Shallow (k + 1) := by
  unfold afterSimple
  split
  · exact ⟨Nat.le_succ_of_le hc, hσ.succ⟩
  · have hbase := c.base_lt_depth
    refine shallow_afterOperand ?_ hσ
    show c.base + 1 < k + 1
    omega

/-- **A token leads one operand deeper at most.** -/
theorem State.Shallow.step (h : s.Shallow k) : (step limit s t).Shallow (k + 1) := by
  obtain ⟨goal, c, σ⟩ := s
  obtain ⟨hreach, hstack⟩ := h
  have hσ : Below k σ := hstack
  unfold Parser.step
  cases goal with
  | expression => exact shallow_beginExpression hreach hσ.succ
  | operand => exact shallow_beginOperand hreach hσ.succ
  | afterSimple e => exact shallow_afterSimple hreach hσ
  | afterOperand e => exact shallow_afterOperand hreach hσ
  | firstItem l =>
    dsimp only
    split
    · exact shallow_closeList hreach hσ.succ
    · split
      · split
        · exact shallow_beginItem hreach hσ.succ
        · trivial
      · exact shallow_beginItem hreach hσ.succ
  | item l => exact shallow_beginItem hreach hσ.succ
  | upperBound l e loc =>
    have hc : c.depth < k + 1 := hreach
    dsimp only
    split
    · exact shallow_beginExpression hc (hσ.succ.push (Nat.le_of_lt hc) _)
    · exact shallow_separate hc hσ.succ
  | firstKey m =>
    have hc : c.depth < k + 1 := hreach
    dsimp only
    split
    · exact ⟨Nat.le_succ_of_le hc, hσ.succ⟩
    · exact shallow_readKey hc hσ.succ
  | key m => exact shallow_readKey hreach hσ.succ
  | colon m key =>
    have hc : c.depth < k + 1 := hreach
    dsimp only
    split
    · exact ⟨Nat.le_succ_of_le hc, hσ.succ.push (Nat.le_of_lt hc) _⟩
    · trivial

end

/-- **A limit of as many operands as there are tokens is never reached.** -/
theorem shifts?_of_shallow {k n : Nat} {s s' : State} {ts : List Token} (hk : s.Shallow k)
    (hs : shifts? none s ts = some s') (h : k + ts.length ≤ n) :
    shifts? (some n) s ts = some s' := by
  induction ts generalizing k s with
  | nil => exact hs
  | cons t ts ih =>
    rw [List.length_cons] at h
    rw [shifts?] at hs
    split at hs
    · rename_i s₁ hs₁
      have hreach := hk.reach
      have hstep := step_of_reach_le (t := t) (show s.reach ≤ n by omega)
      have hk₁ : s₁.Shallow (k + 1) := by
        have hdeeper : (step none s t).Shallow (k + 1) := hk.step
        rwa [hs₁] at hdeeper
      rw [shifts?_cons (hstep.trans hs₁)]
      exact ih hk₁ hs (by omega)
    · cases hs

end Parser

open EL.Parser

/-- **A limit is a threshold and nothing else.** Take two limits, the second one no lower than the
    first, or none. If a parse does not fail for the first limit, the parse with the second one is the
    same: the same tree or the same error, and the same cursor. If it fails, the other parse does not
    fail at an earlier place. And what is read without a limit is read with any limit that is not less
    than the number of its tokens. -/
theorem parse_limit (c : Cursor) (mode : Mode) (path : Option String) (n : Nat) (m : Option Nat)
    (h : ∀ k ∈ m, n ≤ k) :
    ((∀ x stop, c.parse ⟨mode, path, some n⟩ = (.error x, stop) → x.cause ≠ .tooDeep n) →
      c.parse ⟨mode, path, m⟩ = c.parse ⟨mode, path, some n⟩) ∧
    (∀ x stop y stop', c.parse ⟨mode, path, some n⟩ = (.error x, stop) →
      c.parse ⟨mode, path, m⟩ = (.error y, stop') → ¬ y.location < x.location) ∧
    ∀ e stop, c.parse ⟨mode, path, none⟩ = (.ok e, stop) →
      ∃ ts, c.Reads ts stop ∧
        ∀ k, ts.length ≤ k → c.parse ⟨mode, path, some k⟩ = (.ok e, stop) := by
  refine ⟨fun hdeep => ?_, fun x stop y stop' hx hy => ?_, fun e stop hparse => ?_⟩
  · rcases run_le h .initial c with heq | ⟨ts, here, t, after, hr, -⟩
    · exact (parse_congr heq mode path).symm
    · exact absurd (ParseError.cause_attachPath _ _) (hdeep _ _ (hr.parse mode path))
  · rcases run_le h .initial c with heq | ⟨ts, here, t, after, hr, s', hs⟩
    · rw [parse_congr heq mode path, hy] at hx
      cases hx
      exact Location.lt_irrefl _
    · -- The higher limit has come to the same place, and fails there or further on.
      obtain ⟨z, hz, rfl⟩ := error?_of_parse hy
      rw [run_of_shifts? hr.reads hs] at hz
      obtain ⟨place, honward, hplace⟩ := exists_place_of_run hz
      rw [hr.parse mode path] at hx
      cases hx
      rw [ParseError.location_attachPath, ParseError.location_attachPath, hplace]
      show ¬ place.location < t.start.location
      rw [Cursor.start_of_next hr.next]
      exact honward.not_location_lt
  · obtain ⟨ts, t, after, ha⟩ := exists_accepts_of_parse hparse
    refine ⟨ts, ha.reads, fun k hk => ?_⟩
    obtain ⟨s', hs, haccept⟩ := ha.step
    have hs' := shifts?_of_shallow State.shallow_initial hs (show 0 + ts.length ≤ k by omega)
    have ha' : Accepts (some k) .initial c e ts stop t after :=
      ⟨ha.reads, ha.next, s', hs', step_accept_limit haccept⟩
    rw [← hparse]
    exact parse_congr (ha'.run.trans ha.run.symm) mode path

/-- With a sign there are two operands, one in the other: a limit of one refuses the second of them, and
    a limit of two is as good as none. -/
theorem parse_limit_sign :
    ((Cursor.ofText "-x").parse ⟨.strict, none, some 1⟩).1 = .error ⟨.tooDeep 1, ⟨1, 2⟩, none⟩ ∧
    (Cursor.ofText "-x").parse ⟨.strict, none, none⟩ =
      (Cursor.ofText "-x").parse ⟨.strict, none, some 2⟩ := by
  have hsign : (Cursor.ofText "-x").next =
      (.ok ⟨.minus, "-", ⟨0, ⟨1, 1⟩⟩⟩, ⟨['x'], ⟨1, ⟨1, 2⟩⟩⟩) := rfl
  have hname : (⟨['x'], ⟨1, ⟨1, 2⟩⟩⟩ : Cursor).next =
      (.ok ⟨.name, "x", ⟨1, ⟨1, 2⟩⟩⟩, ⟨[], ⟨2, ⟨1, 3⟩⟩⟩) := rfl
  have hdeep : Refuses (some 1) .initial (Cursor.ofText "-x") (.tooDeep 1) false _ _ _ _ :=
    ⟨.cons hsign (by decide) (.nil _), hname, _, rfl, rfl⟩
  have hread : Accepts (some 2) .initial (Cursor.ofText "-x")
      (.unary .minus (.var "x" ⟨1, 2⟩) ⟨1, 1⟩) _ _ _ _ :=
    ⟨.cons hsign (by decide) (.cons hname (by decide) (.nil _)), rfl, _, rfl, rfl⟩
  refine ⟨by rw [hdeep.parse]; rfl, (parse_limit _ _ _ 2 none (by simp)).1 fun x stop hx => ?_⟩
  rw [hread.parse_strict] at hx
  cases hx

end EL
