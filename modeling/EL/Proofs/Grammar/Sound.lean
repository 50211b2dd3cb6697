import EL.Proofs.Grammar.Runs

/-!
# What the parser reads, the grammar derives

The other direction: if the tokens from some state on are accepted, then some of them are a phrase,
derived with the choices of `Policy.longest`, and the rest is accepted from the state after it
(`Splits`). The proof is by induction on the number of tokens. Every phrase that begins with
another one of the same tokens comes after that one in the order of the lemmas, so the hypothesis
is only needed where a token has been taken (`Sound`).
-/

set_option autoImplicit false

namespace EL

open EL.Parser

namespace Parser

/-! ## What accepted tokens were -/

section
variable {limit : Option Nat} {t : Token} {ts : List Token} {c : Chain} {σ : List Frame} {e x : Expr}

/-- The ways an operand can begin, and the states they lead to. -/
inductive Opening (c : Chain) (σ : List Frame) (t : Token) : State → Prop where
  | atom {x : Expr} (h : t.atom? = some x) : Opening c σ t ⟨.afterSimple x, c, σ⟩
  | sign {op : UnaryOp} (h : UnaryOp.ofKind? t.kind = some op) :
      Opening c σ t ⟨.operand, { c with signs := (op, t.location) :: c.signs }, σ⟩
  | parens (h : t.kind = .openParen) :
      Opening c σ t ⟨.operand, .fresh c.depth, ⟨.group t.location true, c⟩ :: σ⟩
  | array (h : t.kind = .openBracket) :
      Opening c σ t ⟨.firstItem ⟨.array, t.location, []⟩, c, σ⟩
  | switch (h : t.kind = .openSwitch) :
      Opening c σ t ⟨.firstItem ⟨.switch, t.location, []⟩, c, σ⟩
  | map (h : t.kind = .openBrace) : Opening c σ t ⟨.firstKey ⟨t.location, []⟩, c, σ⟩

theorem opening_of_beginOperand? {s : State} (h : beginOperand? c σ t = some (.shift s)) :
    Opening c σ t s := by
  unfold beginOperand? at h
  split at h
  case h_3 =>
    rename_i hk
    split at h
    · rename_i hn
      cases h
      exact .atom (by simp [Token.atom?, hk, hn])
    · cases h
  case h_10 =>
    obtain ⟨op, hop, hs⟩ := Option.map_eq_some_iff.mp h
    cases hs
    exact .sign hop
  all_goals
    rename_i hk
    cases h
    first
      | exact .atom (by simp [Token.atom?, hk])
      | exact .parens hk
      | exact .array hk
      | exact .switch hk
      | exact .map hk

theorem beginOperand?_ne_accept : beginOperand? c σ t ≠ some (.accept e) := by
  intro h
  unfold beginOperand? at h
  split at h
  case h_3 => split at h <;> cases h
  case h_10 =>
    obtain ⟨op, -, hs⟩ := Option.map_eq_some_iff.mp h
    cases hs
  all_goals cases h

theorem not_refused {s : State} (h : read? limit s (t :: ts) = some e) :
    ¬ ∃ cause consumed, step limit s t = .refuse cause consumed := by
  rintro ⟨cause, consumed, hs⟩
  rw [read?_refuse hs] at h
  cases h

/-- What is accepted from where an operand begins is not too deep and begins with one. -/
theorem read?_operand (h : read? limit ⟨.operand, c, σ⟩ ts = some e) :
    ∃ t us s, ts = t :: us ∧ Grammar.Admits limit c.depth ∧ Opening c σ t s ∧
      read? limit s us = some e := by
  cases ts with
  | nil => cases h
  | cons t us =>
    cases hb : beginOperand? c σ t with
    | none =>
      have hs : step limit ⟨.operand, c, σ⟩ t = .refuse (.expected .operand t) false := by
        simp [step, beginOperand, hb, need]
      exact absurd ⟨_, _, hs⟩ (not_refused h)
    | some out =>
      by_cases hd : Grammar.Admits limit c.depth
      · rcases read?_cons_eq_some h with ⟨s, hs, hr⟩ | ⟨hs, -⟩ <;> rw [step_operand hd hb] at hs
        · exact ⟨t, us, s, rfl, hd, opening_of_beginOperand? (hs ▸ hb), hr⟩
        · exact absurd (hs ▸ hb) beginOperand?_ne_accept
      · cases limit with
        | none => exact absurd (fun n hn => by cases hn) hd
        | some n =>
          have hn : n < c.depth := Nat.not_le.mp fun hle => hd fun m hm => by cases hm; exact hle
          have hs : step (some n) ⟨.operand, c, σ⟩ t = .refuse (.tooDeep n) false := by
            simp [step, beginOperand, hb, hn]
          exact absurd ⟨_, _, hs⟩ (not_refused h)

theorem read?_group {d : Chain} {loc : Location} {asOperand : Bool}
    (hn : BinaryOp.ofKind? t.kind = none)
    (h : read? limit ⟨.afterOperand x, d, ⟨.group loc asOperand, c⟩ :: σ⟩ (t :: ts) = some e) :
    t.kind = .closeParen ∧ read? limit (closeGroup loc asOperand x c σ) ts = some e := by
  by_cases ht : t.kind = .closeParen
  · rw [read?_shift (step_closeParen ht)] at h
    exact ⟨ht, h⟩
  · exact absurd ⟨_, _, by rw [step_leave hn, leave, if_neg ht, need]⟩ (not_refused h)

theorem read?_value {d : Chain} {m : Entries} {key : String} (hn : BinaryOp.ofKind? t.kind = none)
    (h : read? limit ⟨.afterOperand x, d, ⟨.value m key, c⟩ :: σ⟩ (t :: ts) = some e) :
    t.kind = .comma ∧
        read? limit ⟨.key ⟨m.loc, Expr.insertEntry key x m.done⟩, c, σ⟩ ts = some e ∨
      t.kind = .closeBrace ∧
        read? limit ⟨.afterSimple (.map (Expr.insertEntry key x m.done) m.loc), c, σ⟩ ts = some e := by
  by_cases hc : t.kind = .comma
  · rw [read?_shift (step_value_comma hc)] at h
    exact .inl ⟨hc, h⟩
  · by_cases hb : t.kind = .closeBrace
    · rw [read?_shift (step_value_closeBrace hb)] at h
      exact .inr ⟨hb, h⟩
    · have hs : endValue m key x c σ t = .refuse (.expected {.comma, .closeBrace} t) true := by
        unfold endValue
        split
        · exact absurd ‹t.kind = .comma› hc
        · exact absurd ‹t.kind = .closeBrace› hb
        · rfl
      exact absurd ⟨_, _, by rw [step_leave hn, leave, hs]⟩ (not_refused h)

/-- What is accepted where a key is needed begins with a key and a colon. -/
theorem read?_key {m : Entries} (h : read? limit ⟨.key m, c, σ⟩ ts = some e) :
    ∃ t n us key, ts = t :: n :: us ∧ t.key? = some key ∧ n.kind = .colon ∧
      read? limit ⟨.expression, .fresh c.depth, ⟨.value m key, c⟩ :: σ⟩ us = some e := by
  cases ts with
  | nil => cases h
  | cons t us =>
    cases hk : t.key? with
    | none =>
      refine absurd ⟨.expected {.name, .string} t, true, ?_⟩ (not_refused h)
      unfold Token.key? at hk
      simp only [step, readKey]
      split at hk <;> simp_all [need]
    | some key =>
      have hs : step limit ⟨.key m, c, σ⟩ t = .shift ⟨.colon m key, c, σ⟩ := readKey_key hk
      rw [read?_shift hs] at h
      cases us with
      | nil => cases h
      | cons n us =>
        by_cases hn : n.kind = .colon
        · rw [read?_shift (step_colon hn)] at h
          exact ⟨t, n, us, key, rfl, hk, hn, h⟩
        · refine absurd ⟨.expected {.colon} n, true, ?_⟩ (not_refused h)
          simp [step, hn, need]

theorem read?_separate {l : Listing} {s : State} (hs : step limit s t = separate l c σ t)
    (h : read? limit s (t :: ts) = some e) :
    t.kind = .comma ∧ read? limit ⟨.item l, c, σ⟩ ts = some e ∨
      t.kind = l.shape.closer ∧ read? limit (closeList l c σ) ts = some e := by
  by_cases hc : t.kind = .comma
  · rw [read?_shift (hs.trans (separate_comma hc))] at h
    exact .inl ⟨hc, h⟩
  · by_cases hb : t.kind = l.shape.closer
    · rw [read?_shift (hs.trans (separate_closer hb))] at h
      exact .inr ⟨hb, h⟩
    · have hb' : t.kind ≠ l.closer := hb
      exact absurd ⟨_, _, by rw [hs, separate, if_neg hc, if_neg hb', need]⟩ (not_refused h)

/-- Whatever ends an item as a bare one ends, is as good as a bare one. -/
theorem read?_endBare {d : Chain} {l : Listing} {s : State}
    (hs : step limit s t = separate (l.add x) c σ t) (h : read? limit s (t :: ts) = some e) :
    (t.kind = .comma ∨ t.kind = l.shape.closer) ∧
      read? limit ⟨.afterOperand x, d, ⟨.item l .absent, c⟩ :: σ⟩ (t :: ts) = some e := by
  have hk : t.kind = .comma ∨ t.kind = l.shape.closer :=
    (read?_separate hs h).imp (fun h => h.1) (fun h => h.1)
  refine ⟨hk, ?_⟩
  rw [read?_congr ((step_endBare hk).trans hs.symm)]
  exact h

/-- After an item with something before its last expression, the item ends. It is then as good
    as a bare one. -/
theorem read?_bounded {d d' : Chain} {l : Listing} {bound : Bound} (hb : bound ≠ .absent)
    (hn : BinaryOp.ofKind? t.kind = none)
    (h : read? limit ⟨.afterOperand x, d, ⟨.item l bound, c⟩ :: σ⟩ (t :: ts) = some e) :
    (t.kind = .comma ∨ t.kind = l.shape.closer) ∧
      read? limit ⟨.afterOperand (bound.complete x), d', ⟨.item l .absent, c⟩ :: σ⟩ (t :: ts) =
        some e := by
  have hs : step limit ⟨.afterOperand x, d, ⟨.item l bound, c⟩ :: σ⟩ t =
      separate (l.add (bound.complete x)) c σ t := by
    rw [step_leave hn, leave, endItem_eq_separate fun h => hb h.2]
  exact read?_endBare hs h

theorem read?_upperBound {d : Chain} {l : Listing} {loc : Location}
    (h : read? limit ⟨.upperBound l x loc, c, σ⟩ (t :: ts) = some e) :
    t.kind ∈ TokenSet.simpleTerm ∧
        read? limit ⟨.expression, .fresh c.depth, ⟨.item l (.lower x loc), c⟩ :: σ⟩ (t :: ts) =
          some e ∨
      (t.kind = .comma ∨ t.kind = l.shape.closer) ∧
        read? limit ⟨.afterOperand (.unary .leftBoundedRange x loc), d, ⟨.item l .absent, c⟩ :: σ⟩
          (t :: ts) = some e := by
  by_cases ht : t.kind ∈ TokenSet.simpleTerm
  · rw [read?_congr (step_upperBound_begins ht)] at h
    exact .inl ⟨ht, h⟩
  · have hs : step limit ⟨.upperBound l x loc, c, σ⟩ t =
        separate (l.add (.unary .leftBoundedRange x loc)) c σ t := by simp [step, ht]
    exact .inr (read?_endBare hs h)

/-- After a bare item either the item ends or the dots of a range follow. -/
theorem read?_item {d : Chain} {s : Shape} {loc : Location} {done : List Expr}
    (hn : BinaryOp.ofKind? t.kind = none)
    (h : read? limit ⟨.afterOperand x, d, ⟨.item ⟨s, loc, done⟩ .absent, c⟩ :: σ⟩ (t :: ts) = some e) :
    (t.kind = .comma ∨ t.kind = s.closer) ∨ t.kind = .range ∧
      (s = .array ∧ read? limit ⟨.expression, .fresh c.depth,
          ⟨.item ⟨.array, loc, done⟩ (.lower x t.location), c⟩ :: σ⟩ ts = some e ∨
        ∃ y, s = .index y ∧
          read? limit ⟨.upperBound ⟨.index y, loc, done⟩ x t.location, c, σ⟩ ts = some e) := by
  by_cases hr : t.kind = .range
  · cases s with
    | array =>
      rw [read?_shift (step_range_array hr)] at h
      exact .inr ⟨hr, .inl ⟨rfl, h⟩⟩
    | index y =>
      rw [read?_shift (step_range_index hr)] at h
      exact .inr ⟨hr, .inr ⟨y, rfl, h⟩⟩
    | switch =>
      have hs : endItem ⟨.switch, loc, done⟩ .absent x c σ t =
          .refuse (.expected {.comma, .closeSwitch} t) true := by
        unfold endItem
        rw [hr]
        simp [separate, hr, need, Listing.closer, Listing.add]
      exact absurd ⟨_, _, by rw [step_leave hn, leave, hs]⟩ (not_refused h)
  · have hs : step limit ⟨.afterOperand x, d, ⟨.item ⟨s, loc, done⟩ .absent, c⟩ :: σ⟩ t =
        separate (Listing.add ⟨s, loc, done⟩ x) c σ t := by
      rw [step_leave hn, leave, endItem_eq_separate fun h => hr h.1]
      rfl
    rcases read?_separate hs h with ⟨hc, -⟩ | ⟨hc, -⟩
    · exact .inl (.inl hc)
    · exact .inl (.inr hc)

end

end Parser

namespace Grammar

/-- No token of this kind continues a chain. -/
def EndsChain (k : Kind) : Prop := BinaryOp.ofKind? k = none

/-- Some of the tokens are a phrase, and the tokens after them, which begin with one of these
    kinds, are accepted from the state after the phrase. -/
def Splits {α : Type} (limit : Option Nat) (b : Nat) (phrase : α → Phrase) (after : α → State)
    (stop : Kind → Prop) (ts : List Token) (e : Expr) : Prop :=
  ∃ x us t vs, ts = us ++ t :: vs ∧ stop t.kind ∧ Derives .longest limit b (phrase x) us t.kind ∧
    read? limit (after x) (t :: vs) = some e

/-- What is accepted among these tokens, from any state that is the beginning of a phrase, begins
    with the phrase. -/
structure Sound (limit : Option Nat) (ts : List Token) : Prop where
  expression : ∀ {b σ e}, read? limit ⟨.expression, .fresh b, σ⟩ ts = some e →
    Splits limit b .expression (fun x => ⟨.afterOperand x, .fresh b, σ⟩) EndsChain ts e
  term : ∀ {b σ e}, read? limit ⟨.operand, .fresh b, σ⟩ ts = some e →
    Splits limit b .term (fun x => ⟨.afterOperand x, .fresh b, σ⟩) EndsChain ts e
  tail : ∀ {b σ x e}, read? limit ⟨.afterOperand x, .fresh b, σ⟩ ts = some e →
    Splits limit b (.tail x) (fun x' => ⟨.afterOperand x', .fresh b, σ⟩) EndsChain ts e
  operand : ∀ {b c σ e}, c.depth = b + 1 → read? limit ⟨.operand, c, σ⟩ ts = some e →
    Splits limit b .operand (fun x => c.resume x σ) (fun _ => True) ts e
  subscripts : ∀ {b c σ x e}, c.depth = b + 1 → read? limit ⟨.afterSimple x, c, σ⟩ ts = some e →
    Splits limit b (.subscripts x) (fun x' => ⟨.afterSimple x', c, σ⟩) (· ≠ .openBracket) ts e
  listing : ∀ {b c σ s loc e}, c.depth = b + 1 →
    read? limit ⟨.firstItem ⟨s, loc, []⟩, c, σ⟩ ts = some e →
    Splits limit b (.listing s) (fun es => closeList ⟨s, loc, es.reverse⟩ c σ) (fun _ => True) ts e
  items : ∀ {b c σ s loc done e}, c.depth = b + 1 →
    read? limit ⟨.item ⟨s, loc, done⟩, c, σ⟩ ts = some e →
    Splits limit b (.items s) (fun es => closeList ⟨s, loc, es.reverse ++ done⟩ c σ)
      (fun _ => True) ts e
  entries : ∀ {b c σ loc m e}, c.depth = b + 1 → read? limit ⟨.key ⟨loc, m⟩, c, σ⟩ ts = some e →
    Splits limit b (.entries m) (fun m' => ⟨.afterSimple (.map m' loc), c, σ⟩) (fun _ => True) ts e

/-- The kind of a token as that of the first of the tokens from it on. -/
theorem kind_eq_ahead {t u : Token} {ts us vs : List Token} (h : t :: ts = us ++ u :: vs) :
    t.kind = ahead us u.kind := by
  cases us <;> cases h <;> rfl

theorem exists_cons_of_read? {limit : Option Nat} {s : State} {ts : List Token} {e : Expr}
    (h : read? limit s ts = some e) : ∃ t us, ts = t :: us := by
  cases ts with
  | nil => cases h
  | cons t us => exact ⟨t, us, rfl⟩

namespace Sound

section
variable {limit : Option Nat} {t : Token} {ts : List Token} {b : Nat} {c : Chain} {σ : List Frame}
  {e x : Expr} (ih : ∀ us, us.length < (t :: ts).length → Sound limit us)
include ih

/-- Parentheses, from the opening one on, and what follows them in their chain. -/
theorem group {loc : Location} {asOperand : Bool} {base : Nat}
    {σ' : List Frame} (hclose : ∀ x, closeGroup loc asOperand x c σ =
      ⟨.afterOperand (.unary .group x loc), .fresh base, σ'⟩)
    (h : read? limit ⟨.operand, .fresh base, ⟨.group loc asOperand, c⟩ :: σ⟩ ts = some e) :
    ∃ x x' us cl vs u ws, ts = us ++ cl :: (vs ++ u :: ws) ∧ cl.kind = .closeParen ∧
      EndsChain u.kind ∧ Derives .longest limit base (.term x) us .closeParen ∧
      Derives .longest limit base (.tail (.unary .group x loc) x') vs u.kind ∧
      read? limit ⟨.afterOperand x', .fresh base, σ'⟩ (u :: ws) = some e := by
  obtain ⟨x, us, cl, vs, rfl, hcl, hterm, hr⟩ := (ih ts (Nat.lt_succ_self _)).term h
  obtain ⟨hk, hr⟩ := read?_group hcl hr
  rw [hclose] at hr
  obtain ⟨x', vs, u, ws, rfl, hu, htail, hr⟩ := (ih vs (by simp only [List.length_append, List.length_cons]; omega)).tail hr
  exact ⟨x, x', us, cl, vs, u, ws, rfl, hk, hu, hk ▸ hterm, htail, hr⟩

omit ih in
theorem base' (c : Chain) (σ : List Frame) (loc : Location) (x : Expr) :
    closeGroup loc true x c σ =
      ⟨.afterOperand (.unary .group x loc), .fresh c.depth, ⟨.closedGroup, c⟩ :: σ⟩ := rfl

theorem simple {s : State} (hd : c.depth = b + 1) (ht : t.kind ≠ .openSwitch)
    (ho : Opening c σ t s) (h : read? limit s ts = some e) :
    Splits limit b .simple (fun x => ⟨.afterSimple x, c, σ⟩) (fun _ => True) (t :: ts) e := by
  cases ho with
  | atom ha =>
    obtain ⟨u, us, rfl⟩ := exists_cons_of_read? h
    exact ⟨_, [t], u, us, rfl, trivial, .atom ha, h⟩
  | sign hop =>
    rename_i op
    have hd' : Chain.depth { c with signs := (op, t.location) :: c.signs } = b + 1 + 1 := by
      simp only [Chain.depth, List.length_cons] at hd ⊢
      omega
    obtain ⟨x, us, u, vs, rfl, -, hx, hr⟩ := (ih ts (Nat.lt_succ_self _)).operand hd' h
    exact ⟨_, t :: us, u, vs, rfl, trivial, .sign hop hx, hr⟩
  | parens hk =>
    obtain ⟨x, x', us, cl, vs, u, ws, rfl, hcl, hu, hterm, htail, hr⟩ :=
      group ih (base' c σ t.location) h
    refine ⟨x', t :: (us ++ cl :: vs), u, ws, by simp, trivial, ?_, ?_⟩
    · exact .parens hk hcl (hd ▸ hterm) (hd ▸ htail) hu
    · rw [← hr]
      exact read?_congr (step_closedGroup hu c x' c.depth σ).symm
  | array hk =>
    obtain ⟨es, us, u, vs, rfl, -, hes, hr⟩ := (ih ts (Nat.lt_succ_self _)).listing hd h
    refine ⟨_, t :: us, u, vs, rfl, trivial, .array hk hes, ?_⟩
    simpa [closeList, Listing.items] using hr
  | switch hk => exact absurd hk ht
  | map hk =>
    obtain ⟨u, us, rfl⟩ := exists_cons_of_read? h
    by_cases hu : u.kind = .closeBrace
    · have hclose : step limit ⟨.firstKey ⟨t.location, []⟩, c, σ⟩ u =
          .shift ⟨.afterSimple (.map [] t.location), c, σ⟩ := by simp [step, hu]
      rw [read?_shift hclose] at h
      obtain ⟨v, vs, rfl⟩ := exists_cons_of_read? h
      exact ⟨_, [t, u], v, vs, rfl, trivial, .emptyMap hk hu, h⟩
    · have hkey : step limit ⟨.firstKey ⟨t.location, []⟩, c, σ⟩ u =
          step limit ⟨.key ⟨t.location, []⟩, c, σ⟩ u := by simp [step, hu]
      rw [read?_congr hkey] at h
      obtain ⟨m, us, v, vs, he, -, hm, hr⟩ := (ih _ (Nat.lt_succ_self _)).entries hd h
      exact ⟨_, t :: us, v, vs, by rw [he]; rfl, trivial, .map hk hm, hr⟩

end

section
variable {limit : Option Nat} {ts : List Token} {b : Nat} {c : Chain} {σ : List Frame}
  {e x : Expr} (ih : ∀ us, us.length < ts.length → Sound limit us)
include ih

theorem operand_of (hd : c.depth = b + 1) (h : read? limit ⟨.operand, c, σ⟩ ts = some e) :
    Splits limit b .operand (fun x => c.resume x σ) (fun _ => True) ts e := by
  obtain ⟨t, us, s, rfl, hb, ho, hr⟩ := read?_operand h
  by_cases ht : t.kind = .openSwitch
  · cases ho with
    | switch hk =>
      obtain ⟨es, us, u, vs, rfl, -, hes, hr⟩ := (ih us (Nat.lt_succ_self _)).listing hd hr
      refine ⟨_, t :: us, u, vs, rfl, trivial, .switch (hd ▸ hb) hk hes, ?_⟩
      simpa only [closeList_switch, List.reverse_reverse] using hr
    | atom ha => exact absurd (mem_simpleTerm_of_atom? ha) (by rw [ht]; decide)
    | sign hop => exact absurd (mem_simpleTerm_of_sign hop) (by rw [ht]; decide)
    | parens hk | array hk | map hk => exact absurd (ht.symm.trans hk) (by decide)
  · obtain ⟨x, us, u, vs, he, -, hx, hr⟩ := simple ih hd ht ho hr
    obtain ⟨w, ws, rfl, -⟩ := hx.begins
    have hlt : (u :: vs).length < (t :: us).length := by simp only [he, List.length_append, List.length_cons]; omega
    obtain ⟨x', us', u', vs', he', hu', hx', hr⟩ := (ih _ hlt).subscripts hd hr
    have hu := kind_eq_ahead he'
    refine ⟨x', w :: ws ++ us', u', vs', by rw [he, he']; simp, trivial, ?_, ?_⟩
    · exact .subscripted (hd ▸ hb) (hu ▸ hx) hx' hu'
    · rw [read?_congr (step_resume hu' c x' σ)]
      exact hr

theorem tail_of (h : read? limit ⟨.afterOperand x, .fresh b, σ⟩ ts = some e) :
    Splits limit b (.tail x) (fun x' => ⟨.afterOperand x', .fresh b, σ⟩) EndsChain ts e := by
  obtain ⟨t, us, rfl⟩ := exists_cons_of_read? h
  cases hop : BinaryOp.ofKind? t.kind with
  | none => exact ⟨x, [], t, us, rfl, hop, .tailEnd, h⟩
  | some op =>
    rw [read?_shift (step_binop hop)] at h
    obtain ⟨r, us, u, vs, rfl, -, hr, h⟩ := (ih us (Nat.lt_succ_self _)).operand rfl h
    have h : read? limit ⟨.afterOperand (.binary op x r t.location), .fresh b, σ⟩ (u :: vs) =
      some e := h
    obtain ⟨x', us', u', vs', he, hu', hx', h⟩ := (ih (u :: vs) (by simp only [List.length_append, List.length_cons]; omega)).tail h
    have hu := kind_eq_ahead he
    exact ⟨x', t :: (us ++ us'), u', vs', by rw [he]; simp, hu', .tailMore hop (hu ▸ hr) hx', h⟩

theorem term_of (h : read? limit ⟨.operand, .fresh b, σ⟩ ts = some e) :
    Splits limit b .term (fun x => ⟨.afterOperand x, .fresh b, σ⟩) EndsChain ts e := by
  obtain ⟨x, us, u, vs, rfl, -, hx, hr⟩ := operand_of ih (Chain.depth_fresh b) h
  obtain ⟨w, ws, rfl, -⟩ := hx.begins
  obtain ⟨x', us', u', vs', he, hu', hx', hr⟩ := (ih (u :: vs) (by simp only [List.length_append, List.length_cons]; omega)).tail hr
  have hu := kind_eq_ahead he
  exact ⟨x', w :: ws ++ us', u', vs', by rw [he]; simp, hu', .chain (hu ▸ hx) hx', hr⟩

theorem expression_of (h : read? limit ⟨.expression, .fresh b, σ⟩ ts = some e) :
    Splits limit b .expression (fun x => ⟨.afterOperand x, .fresh b, σ⟩) EndsChain ts e := by
  obtain ⟨t, us, rfl⟩ := exists_cons_of_read? h
  by_cases ht : t.kind = .openParen
  · have hopen : step limit ⟨.expression, .fresh b, σ⟩ t =
        .shift ⟨.operand, .fresh b, ⟨.group t.location false, .fresh b⟩ :: σ⟩ := by
      simp [step, beginExpression, ht, Chain.fresh]
    rw [read?_shift hopen] at h
    obtain ⟨x, x', us, cl, vs, u, ws, rfl, hcl, hu, hterm, htail, hr⟩ :=
      group ih (fun _ => rfl) h
    exact ⟨x', t :: (us ++ cl :: vs), u, ws, by simp, hu, .grouped ht hcl hterm htail, hr⟩
  · rw [read?_congr (step_expression ht)] at h
    obtain ⟨x, us, u, vs, he, hu, hx, hr⟩ := term_of ih h
    obtain ⟨w, ws, rfl, -⟩ := hx.begins
    refine ⟨x, w :: ws, u, vs, he, hu, .ungrouped ?_ hx, hr⟩
    cases he
    exact ht

theorem item_of {s : Shape} {loc : Location} {done : List Expr} (hd : c.depth = b + 1)
    (h : read? limit ⟨.item ⟨s, loc, done⟩, c, σ⟩ ts = some e) :
    Splits limit b (.item s)
      (fun x => ⟨.afterOperand x, .fresh (b + 1), ⟨.item ⟨s, loc, done⟩ .absent, c⟩ :: σ⟩)
      (fun k => k = .comma ∨ k = s.closer) ts e := by
  obtain ⟨t, ts, rfl⟩ := exists_cons_of_read? h
  by_cases ht : t.kind = .range
  · cases s with
    | index y =>
      rw [read?_shift (step_item_range ht), hd] at h
      obtain ⟨hi, us, u, vs, rfl, hu, hhi, hr⟩ := (ih ts (Nat.lt_succ_self _)).expression h
      obtain ⟨hk, hr⟩ := read?_bounded (by simp) hu hr
      exact ⟨_, t :: us, u, vs, rfl, hk, .rightBounded ht hhi, hr⟩
    | array | switch =>
      refine absurd ⟨.expected .operand t, false, ?_⟩ (not_refused h)
      have hn : ∀ c' σ', beginOperand? c' σ' t = none := by
        intro c' σ'
        simp [beginOperand?, ht, UnaryOp.ofKind?]
      simp [step, beginItem, beginExpression, ht, beginOperand, hn, need]
  · rw [read?_congr (step_item ht), hd] at h
    obtain ⟨lo, us, u, vs, he, hu, hlo, hlr⟩ := expression_of ih h
    rcases read?_item hu hlr with hk | ⟨hk, ⟨rfl, hr⟩ | ⟨y, rfl, hr⟩⟩
    · exact ⟨lo, us, u, vs, he, hk, .bare hlo, hlr⟩
    · have hlt : vs.length < (t :: ts).length := by simp only [he, List.length_append, List.length_cons]; omega
      rw [hd] at hr
      obtain ⟨hi, us', u', vs', rfl, hu', hhi, hr⟩ := (ih vs hlt).expression hr
      obtain ⟨hk', hr⟩ := read?_bounded (by simp) hu' hr
      exact ⟨_, us ++ u :: us', u', vs', by simp [he], hk', .bounded (hk ▸ hlo) hk hhi, hr⟩
    · obtain ⟨v, vs, rfl⟩ := exists_cons_of_read? hr
      rcases read?_upperBound hr with ⟨hv, hr⟩ | ⟨hv, hr⟩
      · have hlt : (v :: vs).length < (t :: ts).length := by simp only [he, List.length_append, List.length_cons]; omega
        rw [hd] at hr
        obtain ⟨hi, us', u', vs', he', hu', hhi, hr⟩ := (ih _ hlt).expression hr
        obtain ⟨hk', hr⟩ := read?_bounded (by simp) hu' hr
        rw [kind_eq_ahead he'] at hv
        exact ⟨_, us ++ u :: us', u', vs', by simp [he, he'], hk',
          .boundedIndex (hk ▸ hlo) hk hv hhi, hr⟩
      · exact ⟨_, us ++ [u], v, vs, by simp [he], hv, .leftBounded (hk ▸ hlo) hk, hr⟩

theorem items_of {s : Shape} {loc : Location} {done : List Expr} (hd : c.depth = b + 1)
    (h : read? limit ⟨.item ⟨s, loc, done⟩, c, σ⟩ ts = some e) :
    Splits limit b (.items s) (fun es => closeList ⟨s, loc, es.reverse ++ done⟩ c σ)
      (fun _ => True) ts e := by
  obtain ⟨x, us, u, vs, rfl, hu, hx, hr⟩ := item_of ih hd h
  rcases read?_separate (step_endBare hu) hr with ⟨hk, hr⟩ | ⟨hk, hr⟩
  · obtain ⟨es, us', u', vs', rfl, -, hes, hr⟩ := (ih vs (by simp only [List.length_append, List.length_cons]; omega)).items hd hr
    refine ⟨x :: es, us ++ u :: us', u', vs', by simp, trivial, .moreItems (hk ▸ hx) hk hes, ?_⟩
    simpa [Listing.add] using hr
  · obtain ⟨v, vs, rfl⟩ := exists_cons_of_read? hr
    exact ⟨[x], us ++ [u], v, vs, by simp, trivial, .lastItem (hk ▸ hx) hk, hr⟩

theorem listing_of {s : Shape} {loc : Location} (hd : c.depth = b + 1)
    (h : read? limit ⟨.firstItem ⟨s, loc, []⟩, c, σ⟩ ts = some e) :
    Splits limit b (.listing s) (fun es => closeList ⟨s, loc, es.reverse⟩ c σ)
      (fun _ => True) ts e := by
  obtain ⟨t, us, rfl⟩ := exists_cons_of_read? h
  by_cases ht : t.kind = s.closer
  · rw [read?_shift (step_firstItem_closer ht)] at h
    obtain ⟨v, vs, rfl⟩ := exists_cons_of_read? h
    exact ⟨[], [t], v, vs, rfl, trivial, .noItems ht, h⟩
  · by_cases hs : s = .switch → t.kind ∈ TokenSet.simpleTerm
    · rw [read?_congr (step_firstItem ht hs)] at h
      obtain ⟨es, us, u, vs, he, -, hes, hr⟩ := items_of ih hd h
      simp only [List.append_nil] at hr
      rw [kind_eq_ahead he] at hs
      exact ⟨es, us, u, vs, he, trivial, .someItems hs hes, hr⟩
    · obtain ⟨rfl, hk⟩ := Classical.not_imp.mp hs
      have hs : step limit ⟨.firstItem ⟨.switch, loc, []⟩, c, σ⟩ t =
          .refuse (.expected (.simpleTerm ∪ {.closeSwitch}) t) false := by
        simp [step, hk, need, show t.kind ≠ Listing.closer ⟨.switch, loc, []⟩ from ht]
      exact absurd ⟨_, _, hs⟩ (not_refused h)

theorem subscripts_of (hd : c.depth = b + 1)
    (h : read? limit ⟨.afterSimple x, c, σ⟩ ts = some e) :
    Splits limit b (.subscripts x) (fun x' => ⟨.afterSimple x', c, σ⟩) (· ≠ .openBracket) ts e := by
  obtain ⟨t, us, rfl⟩ := exists_cons_of_read? h
  by_cases ht : t.kind = .openBracket
  · rw [read?_shift (step_openIndex ht)] at h
    obtain ⟨es, us, u, vs, rfl, -, hes, hr⟩ := (ih us (Nat.lt_succ_self _)).listing hd h
    have hr : read? limit ⟨.afterSimple (.subscript x (.collect es t.location) t.location), c, σ⟩
        (u :: vs) = some e := by
      simp only [closeList, Listing.collected, Listing.items, List.reverse_reverse] at hr
      exact hr
    obtain ⟨x', us', u', vs', he, hu', hx', hr⟩ := (ih (u :: vs) (by simp only [List.length_append, List.length_cons]; omega)).subscripts hd hr
    have hu := kind_eq_ahead he
    exact ⟨x', t :: (us ++ us'), u', vs', by simp [he], hu', .subscriptsMore ht (hu ▸ hes) hx', hr⟩
  · exact ⟨x, [], t, us, rfl, ht, .subscriptsEnd, h⟩

theorem entries_of {loc : Location} {m : List (String × Expr)} (hd : c.depth = b + 1)
    (h : read? limit ⟨.key ⟨loc, m⟩, c, σ⟩ ts = some e) :
    Splits limit b (.entries m) (fun m' => ⟨.afterSimple (.map m' loc), c, σ⟩)
      (fun _ => True) ts e := by
  obtain ⟨t, n, us, key, rfl, ht, hn, h⟩ := read?_key h
  rw [hd] at h
  obtain ⟨x, us, u, vs, rfl, hu, hx, hr⟩ :=
    (ih us (by simp only [List.length_cons]; omega)).expression h
  rcases read?_value hu hr with ⟨hk, hr⟩ | ⟨hk, hr⟩
  · obtain ⟨m', us', u', vs', rfl, -, hm, hr⟩ :=
      (ih vs (by simp only [List.length_append, List.length_cons]; omega)).entries hd hr
    exact ⟨m', t :: n :: (us ++ u :: us'), u', vs', by simp, trivial,
      .moreEntries ht hn (hk ▸ hx) hk hm, hr⟩
  · obtain ⟨v, vs, rfl⟩ := exists_cons_of_read? hr
    exact ⟨_, t :: n :: (us ++ [u]), v, vs, by simp, trivial, .lastEntry ht hn (hk ▸ hx) hk, hr⟩

/-- One phrase more, if fewer tokens are dealt with. -/
theorem of_shorter : Sound limit ts where
  expression := expression_of ih
  term := term_of ih
  tail := tail_of ih
  operand := operand_of ih
  subscripts := subscripts_of ih
  listing := listing_of ih
  items := items_of ih
  entries := entries_of ih

end

end Sound

/-- **What the parser reads is what the grammar derives**, with the longest choices. -/
theorem sound (limit : Option Nat) (ts : List Token) : Sound limit ts :=
  .of_shorter fun us _ => sound limit us
termination_by ts.length

end Grammar

end EL
