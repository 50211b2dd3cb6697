import EL.Proofs.Outline

/-!
# What a derivation does not depend on

A phrase may be moved to other surroundings. **It stays a phrase inside of fewer operands, and before
any token that its parts can end before** (`Derives.move`); without a limit it does not matter how many
operands it stands in. A list may even become a list of another kind: what stands between the brackets
of an array can stand between those of a subscript (`Derives.listing_index`), where only the upper
bounds of ranges are looked at more closely.
-/

set_option autoImplicit false

namespace EL

open EL.Parser (Shape)

namespace Grammar

/-- What can end before a token of the kind `k` can end before one of the kind `k'`. -/
structure Policy.EndsAs (π : Policy) (k k' : Kind) : Prop where
  tail : ∀ {us}, π.endsTail us k → π.endsTail us k'
  subscripts : π.endsSubscripts k → π.endsSubscripts k'

variable {π : Policy} {limit : Option Nat} {b b' : Nat} {p : Phrase} {ts : List Token} {k k' : Kind}

theorem Policy.EndsAs.refl (k : Kind) : π.EndsAs k k := ⟨id, id⟩

theorem Policy.EndsAs.ahead (h : π.EndsAs k k') : ∀ ts : List Token,
    π.EndsAs (Grammar.ahead ts k) (Grammar.ahead ts k')
  | [] => h
  | t :: _ => .refl t.kind

theorem Admits.mono {m n : Nat} (h : Admits limit n) (hm : m ≤ n) : Admits limit m :=
  fun l hl => Nat.le_trans hm (h l hl)

/-- A phrase that cannot be empty begins the same whatever follows. -/
theorem ahead_of_begins {t : Token} {us : List Token} (h : ts = t :: us) (k k' : Kind) :
    ahead ts k = ahead ts k' := by
  rw [h]
  rfl

/-- Whatever depth is allowed above `b` is allowed above `b'`. -/
def Deepens (limit : Option Nat) (b b' : Nat) : Prop :=
  ∀ d, Admits limit (b + d) → Admits limit (b' + d)

theorem Deepens.succ (h : Deepens limit b b') : Deepens limit (b + 1) (b' + 1) := fun d hd => by
  rw [Nat.add_right_comm] at hd ⊢
  exact h (d + 1) hd

theorem Deepens.of_le (h : b' ≤ b) : Deepens limit b b' :=
  fun d hd => hd.mono (Nat.add_le_add_right h d)

theorem Derives.move (h : Derives π limit b p ts k) (hb : Deepens limit b b')
    (hk : π.EndsAs k k') : Derives π limit b' p ts k' := by
  induction h generalizing b' k' with
  | grouped ho hc _ _ iht ihu => exact .grouped ho hc (iht hb (.refl _)) (ihu hb hk)
  | ungrouped hbegins ht ih =>
    obtain ⟨t, us, hts, -⟩ := ht.begins
    rw [ahead_of_begins hts _ k'] at hbegins
    exact .ungrouped hbegins (ih hb hk)
  | chain _ _ iho ihu => exact .chain (iho hb (hk.ahead _)) (ihu hb hk)
  | tailEnd => exact .tailEnd
  | tailMore ht _ _ ihr ihu => exact .tailMore ht (ihr hb (hk.ahead _)) (ihu hb hk)
  | subscripted hl _ _ hend ihs ihu =>
    exact .subscripted (hb 1 hl) (ihs hb (hk.ahead _)) (ihu hb hk)
      (hk.subscripts hend)
  | switch hl ho _ ih => exact .switch (hb 1 hl) ho (ih hb hk)
  | atom ht => exact .atom ht
  | sign ht _ ih => exact .sign ht (ih hb.succ hk)
  | parens ho hc _ _ hend iht ihu =>
    have hb := hb.succ
    exact .parens ho hc (iht hb (.refl _)) (ihu hb hk) (hk.tail hend)
  | array ho _ ih => exact .array ho (ih hb hk)
  | emptyMap ho hc => exact .emptyMap ho hc
  | map ho _ ih => exact .map ho (ih hb hk)
  | subscriptsEnd => exact .subscriptsEnd
  | subscriptsMore ho _ _ ihs ihu => exact .subscriptsMore ho (ihs hb (hk.ahead _)) (ihu hb hk)
  | noItems hc => exact .noItems hc
  | someItems hs hi ih =>
    obtain ⟨t, us, hts, -⟩ := hi.begins
    rw [ahead_of_begins hts _ k'] at hs
    exact .someItems hs (ih hb hk)
  | lastItem _ hc ih => exact .lastItem (ih hb (.refl _)) hc
  | moreItems _ hc _ ihi ihs => exact .moreItems (ihi hb (.refl _)) hc (ihs hb hk)
  | bare _ ih => exact .bare (ih hb.succ hk)
  | bounded _ ht _ ihl ihh =>
    have hb := hb.succ
    exact .bounded (ihl hb (.refl _)) ht (ihh hb hk)
  | boundedIndex _ ht hbegins hh ihl ihh =>
    have hb := hb.succ
    obtain ⟨t, us, hus, -⟩ := hh.begins
    rw [ahead_of_begins hus _ k'] at hbegins
    exact .boundedIndex (ihl hb (.refl _)) ht hbegins (ihh hb hk)
  | leftBounded _ ht ih => exact .leftBounded (ih hb.succ (.refl _)) ht
  | rightBounded ht _ ih => exact .rightBounded ht (ih hb.succ hk)
  | lastEntry ht hn _ hc ih => exact .lastEntry ht hn (ih hb.succ (.refl _)) hc
  | moreEntries ht hn _ hc _ ihe ihm =>
    exact .moreEntries ht hn (ihe hb.succ (.refl _)) hc (ihm hb hk)

/-- A phrase that is derived inside of some operands is derived inside of fewer. -/
theorem Derives.adapt (h : Derives π limit b p ts k) (hb : b' ≤ b) (hk : π.EndsAs k k') :
    Derives π limit b' p ts k' :=
  h.move (.of_le hb) hk

/-- Without a limit a phrase is derived at any depth. -/
theorem Derives.rebase (h : Derives π none b p ts k) (b' : Nat) (hk : π.EndsAs k k') :
    Derives π none b' p ts k' :=
  h.move (fun _ _ n hn => by cases hn) hk

/-! ## Arrays -/

section
variable {es : List Expr} {loc : Location}

/-! An array is derived by its own rule, however many rules lead to that one. -/

theorem Derives.listing_of_simple (h : Derives π limit b (.simple (.array es loc)) ts k) :
    ∃ o us, ts = o :: us ∧ Derives π limit b (.listing .array es) us k := by
  cases h with
  | atom ht => rcases Token.eq_of_atom? ht with ⟨v, loc, he⟩ | ⟨x, loc, he⟩ <;> cases he
  | parens _ _ _ hu =>
    obtain ⟨-, -, -, ⟨-, he⟩ | hchain⟩ := hu.outline
    · cases he
    · cases hchain
  | array _ hs => exact ⟨_, _, rfl, hs⟩

theorem Derives.listing_of_operand (h : Derives π limit b (.operand (.array es loc)) ts k) :
    ∃ o us, ts = o :: us ∧ Derives π limit b (.listing .array es) us k := by
  cases h with
  | subscripted _ hs hu =>
    obtain ⟨-, -, -, ⟨rfl, rfl⟩ | ⟨x, i, loc, he⟩⟩ := hu.outline
    · rw [List.append_nil]
      exact hs.listing_of_simple
    · cases he

theorem Derives.listing_of_expression (h : Derives π limit b (.expression (.array es loc)) ts k) :
    ∃ o us, ts = o :: us ∧ Derives π limit b (.listing .array es) us k := by
  cases h with
  | grouped _ _ _ hu =>
    obtain ⟨-, -, -, ⟨-, he⟩ | hchain⟩ := hu.outline
    · cases he
    · cases hchain
  | ungrouped _ ht =>
    cases ht with
    | chain ho hu =>
      obtain ⟨-, -, -, ⟨rfl, rfl⟩ | hchain⟩ := hu.outline
      · rw [List.append_nil]
        exact ho.listing_of_operand
      · cases hchain

/-- An array that is alone in its list. -/
theorem Derives.listing_of_sole {s : Shape} (h : Derives π limit b (.listing s [.array es loc]) ts k) :
    ∃ o us c, ts = o :: (us ++ [c]) ∧ Derives π limit (b + 1) (.listing .array es) us s.closer := by
  cases h with
  | someItems _ h =>
    cases h with
    | lastItem hi =>
      cases hi with
      | bare he =>
        obtain ⟨o, us, rfl, hs⟩ := he.listing_of_expression
        exact ⟨o, us, _, rfl, hs⟩
    | moreItems _ _ hs => cases hs

/-! ### Elements as indices -/

variable (x : Expr) (k')

theorem Derives.item_index {e : Expr} (h : Derives π limit b (.item .array e) ts k)
    (he : ∀ lo hi loc, e = .binary .boundedRange lo hi loc →
      π.beginsUpper (ahead hi.tokens .endOfInput)) : Derives π limit b (.item (.index x) e) ts k := by
  cases h with
  | bare he => exact .bare he
  | bounded hl ht hh =>
    have hbegins := he _ _ _ rfl
    rw [hh.outline.1 _ k] at hbegins
    exact .boundedIndex hl ht hbegins hh

theorem Derives.items_index (h : Derives π limit b (.items .array es) ts k)
    (hes : ∀ lo hi loc, .binary .boundedRange lo hi loc ∈ es →
      π.beginsUpper (ahead hi.tokens .endOfInput)) :
    Derives π limit b (.items (.index x) es) ts k' := by
  induction es generalizing ts k with
  | nil => cases h
  | cons e es ih =>
    have he := fun lo hi loc he => hes lo hi loc (List.mem_cons.mpr (.inl (Eq.symm he)))
    cases h with
    | lastItem hi hc => exact .lastItem (hi.item_index x he) hc
    | moreItems hi hc hs =>
      have hrest := ih hs fun lo hi loc he => hes lo hi loc (List.mem_cons_of_mem e he)
      exact .moreItems (hi.item_index x he) hc hrest

/-- **The elements of an array can be the indices of a subscript**, whatever follows, if the policy
    lets the upper bounds of their ranges begin as they do. -/
theorem Derives.listing_index (h : Derives π limit b (.listing .array es) ts k)
    (hes : ∀ lo hi loc, .binary .boundedRange lo hi loc ∈ es →
      π.beginsUpper (ahead hi.tokens .endOfInput)) :
    Derives π limit b (.listing (.index x) es) ts k' := by
  cases h with
  | noItems hc => exact .noItems hc
  | someItems _ hi => exact .someItems nofun (hi.items_index k' x hes)

end

end Grammar

end EL
