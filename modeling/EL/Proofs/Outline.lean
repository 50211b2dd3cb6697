import EL.Proofs.Grammar.NodeLaws
import EL.Proofs.Printing

/-!
# What printing keeps of a derivation

Printing a tree that was derived drops spaces and brackets, and puts entries in order. **It keeps the
tokens that decide**: the first token of every phrase, and whether a tail or subscripts are there at
all (`Derives.outline`).
-/

set_option autoImplicit false

namespace EL

theorem BinaryOp.kind_of_ofKind? {k : Kind} {op : BinaryOp} (h : BinaryOp.ofKind? k = some op) :
    op.kind = k := by
  have := List.find?_some h
  simpa using this

/-- A sign is printed in front of its operand as it was written. -/
theorem UnaryOp.tokens_of_ofKind? {k : Kind} {op : UnaryOp} (h : UnaryOp.ofKind? k = some op)
    (ts : List Token) : op.kind = k ∧ Expr.unaryTokens op ts = .symbol op.kind :: ts := by
  unfold ofKind? at h
  split at h <;> cases h <;> exact ⟨rfl, rfl⟩

/-- The number that a literal stands for is not negative. -/
theorem Number.ofLiteral?_finite {cs : List Char} {s : Bool} {m : Magnitude}
    (h : ofLiteral? cs = some (.finite s m)) : s = false := by
  obtain ⟨d, -, hd⟩ := Option.map_eq_some_iff.mp h
  unfold Decimal.toNumber at hd
  split at hd <;> cases hd
  rfl

/-- **A leaf is printed as one token**, and that stands for the same leaf. -/
theorem Token.atom?_reprint {t : Token} {e : Expr} (h : t.atom? = some e) :
    ∃ u, e.tokens = [u] ∧ u.kind = t.kind ∧ u.atom? = some e.bare := by
  unfold Token.atom? at h
  split at h
  case h_1 hk =>
    cases h
    exact ⟨_, rfl, hk.symm, rfl⟩
  case h_2 hk =>
    cases h
    refine ⟨_, rfl, hk.symm, ?_⟩
    simp only [Literal.token, Token.atom?, Text.unescapeString, Text.escapeString,
      String.toList_ofList, Text.unescape_escape]
    rfl
  case h_3 hk =>
    split at h <;> cases h
    rename_i s m hn
    obtain rfl := Number.ofLiteral?_finite hn
    refine ⟨_, rfl, hk.symm, ?_⟩
    have hback := m.sourceText_reads.2
    simp [Literal.token, Token.atom?, Number.sourceText, Number.signText, hback, Expr.bare,
      Expr.relocate, Token.location]
  case h_4 hk =>
    cases h
    refine ⟨_, rfl, ?_, ?_⟩ <;> by_cases ht : t.text = "true" <;>
      simp [ht, Literal.token, hk, Token.atom?, Expr.bare, Expr.relocate, Token.location]
  case h_5 hk =>
    cases h
    exact ⟨_, rfl, hk.symm, rfl⟩
  case h_6 => cases h

namespace Expr

/-- A bounded range. -/
def IsRange : Expr → Prop
  | binary .boundedRange _ _ _ => True
  | _ => False

theorem IsChain.not_range : ∀ {e : Expr}, e.IsChain → ¬ e.IsRange
  | binary _ _ _ _, h => by
    intro hr
    unfold IsRange at hr
    split at hr
    · rename_i heq
      cases heq
      exact h rfl
    · exact hr

end Expr

namespace Grammar

theorem ahead_append (ts us : List Token) (k : Kind) :
    ahead (ts ++ us) k = ahead ts (ahead us k) := by
  cases ts <;> rfl

/-- What can be said of a phrase and what its trees are printed as: that both begin alike, and that
    tails and subscripts only add something, to the tokens as well as to the tree. -/
def Phrase.Outline (p : Phrase) (ts : List Token) : Prop :=
  match p with
  | .expression e | .term e | .operand e | .simple e =>
    (∀ k k', ahead e.tokens k = ahead ts k') ∧ ¬ e.IsRange
  | .item _ e => ∀ k k', ahead e.tokens k = ahead ts k'
  | .tail e e' => ∃ us, e'.tokens = e.tokens ++ us ∧ ahead us = ahead ts ∧
    (ts = [] ∧ e' = e ∨ e'.IsChain)
  | .subscripts e e' => ∃ us, e'.tokens = e.tokens ++ us ∧ ahead us = ahead ts ∧
    (ts = [] ∧ e' = e ∨ ∃ x i loc, e' = .subscript x i loc)
  | .items _ es => es ≠ [] ∧ ∀ k k', ahead (Token.join (Expr.listTokens es)) k = ahead ts k'
  | .listing _ _ | .entries _ _ => True

theorem outline_of_enclose {o : Token} {ts us : List Token} {k k' : Kind} (ho : o.kind = k) :
    ∀ j j', ahead (Token.enclose k ts k') j = ahead (o :: us) j' :=
  fun _ _ => ho.symm

/-- Tokens behind a phrase change nothing of how it begins. -/
theorem outline_append {ts us vs ws : List Token} (h : ∀ k k', ahead ts k = ahead us k') :
    ∀ k k', ahead (ts ++ vs) k = ahead (us ++ ws) k' := by
  intro k k'
  rw [ahead_append, ahead_append]
  exact h _ _

/-- A tree that is gone on with begins as its first part. -/
theorem outline_extend {e e' : Expr} {ts us vs : List Token}
    (h : ∀ k k', ahead e.tokens k = ahead ts k') (htokens : e'.tokens = e.tokens ++ vs)
    (hus : ahead vs = ahead us) : ∀ k k', ahead e'.tokens k = ahead (ts ++ us) k' := by
  intro k k'
  rw [htokens, ahead_append, ahead_append, hus]
  exact h _ _

/-- Operators behind a tree make no range of it. -/
theorem not_range_of_tail {e e' : Expr} {ts : List Token} (he : ¬ e.IsRange)
    (h : ts = [] ∧ e' = e ∨ e'.IsChain) : ¬ e'.IsRange := by
  rcases h with ⟨-, rfl⟩ | hchain
  · exact he
  · exact hchain.not_range

theorem join_cons {ts : List Token} {tss : List (List Token)} (h : tss ≠ []) :
    Token.join (ts :: tss) = ts ++ .symbol .comma :: Token.join tss := by
  cases tss with
  | nil => exact absurd rfl h
  | cons => rfl

theorem listTokens_ne_nil {es : List Expr} (h : es ≠ []) : Expr.listTokens es ≠ [] := by
  cases es with
  | nil => exact absurd rfl h
  | cons => exact List.cons_ne_nil _ _

theorem entriesTokens_ne_nil {m : List (String × Expr)} (h : m ≠ []) : Expr.entriesTokens m ≠ [] := by
  cases m with
  | nil => exact absurd rfl h
  | cons => exact List.cons_ne_nil _ _

/-- **Printing keeps the outline of a derivation.** -/
theorem Derives.outline {π : Policy} {limit : Option Nat} {b : Nat} {p : Phrase} {ts : List Token}
    {k : Kind} (h : Derives π limit b p ts k) : p.Outline ts := by
  induction h with
  | grouped ho _ _ _ _ ihu | parens ho _ _ _ _ _ ihu =>
    obtain ⟨us, htokens, -, htree⟩ := ihu
    refine ⟨fun j j' => ?_, not_range_of_tail id htree⟩
    rw [htokens]
    exact ho.symm
  | ungrouped _ _ ih => exact ih
  | chain ho _ iho ihu =>
    obtain ⟨us, htokens, hus, htree⟩ := ihu
    exact ⟨outline_extend iho.1 htokens hus, not_range_of_tail iho.2 htree⟩
  | tailEnd => exact ⟨[], (List.append_nil _).symm, rfl, .inl ⟨rfl, rfl⟩⟩
  | @tailMore b t ts us k op e r e' ht _ _ _ ihu =>
    obtain ⟨vs, htokens, -, htree⟩ := ihu
    refine ⟨.symbol op.kind :: (r.tokens ++ vs), ?_, ?_, ?_⟩
    · rw [htokens, Expr.tokens]
      simp
    · funext j
      exact BinaryOp.kind_of_ofKind? ht
    · rcases htree with ⟨-, rfl⟩ | hchain
      · exact .inr (BinaryOp.ne_boundedRange_of_ofKind? ht)
      · exact .inr hchain
  | subscripted _ _ _ _ ihs ihu =>
    obtain ⟨us, htokens, hus, htree⟩ := ihu
    refine ⟨outline_extend ihs.1 htokens hus, ?_⟩
    rcases htree with ⟨-, rfl⟩ | ⟨x, i, loc, rfl⟩
    · exact ihs.2
    · exact id
  | switch _ ho | array ho | emptyMap ho | map ho => exact ⟨outline_of_enclose ho, id⟩
  | atom ht =>
    obtain ⟨u, htokens, hu, -⟩ := Token.atom?_reprint ht
    refine ⟨fun j j' => ?_, ?_⟩
    · rw [htokens]
      exact hu
    · rcases Token.eq_of_atom? ht with ⟨v, loc, rfl⟩ | ⟨x, loc, rfl⟩ <;> exact id
  | sign ht =>
    refine ⟨fun j j' => ?_, id⟩
    obtain ⟨hkind, htokens⟩ := UnaryOp.tokens_of_ofKind? ht _
    rw [Expr.tokens, htokens]
    exact hkind
  | subscriptsEnd => exact ⟨[], (List.append_nil _).symm, rfl, .inl ⟨rfl, rfl⟩⟩
  | @subscriptsMore b o ts us k e e' es ho _ _ _ ihu =>
    obtain ⟨vs, htokens, -, htree⟩ := ihu
    refine ⟨Token.enclose .openBracket (Expr.collect es o.location).indexTokens .closeBracket ++ vs,
      ?_, ?_, ?_⟩
    · rw [htokens, Expr.tokens_subscript, List.append_assoc]
    · funext j
      exact ho.symm
    · rcases htree with ⟨-, rfl⟩ | h
      · exact .inr ⟨_, _, _, rfl⟩
      · exact .inr h
  | noItems | someItems | lastEntry | moreEntries => exact trivial
  | lastItem _ _ ih =>
    refine ⟨List.cons_ne_nil _ _, fun j j' => ?_⟩
    rw [ahead_append]
    exact ih _ _
  | moreItems _ _ _ ihi ihs =>
    refine ⟨List.cons_ne_nil _ _, ?_⟩
    rw [Expr.listTokens, join_cons (listTokens_ne_nil ihs.1)]
    exact outline_append ihi
  | bare _ ih => exact ih.1
  | bounded _ _ _ ihl | boundedIndex _ _ _ _ ihl => exact outline_append ihl.1
  | leftBounded _ _ ih => exact outline_append ih.1
  | rightBounded ht => exact fun _ _ => ht.symm

end Grammar

end EL
