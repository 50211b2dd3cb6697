import EL.Proofs.Grammar
import EL.Proofs.Nodes

/-!
# Laws of all nodes of a derived tree

A rule of the grammar makes one node at most, and it knows little of the trees below that node. So
what holds of every node a rule can make holds of all nodes of a derived tree
(`Derives.all_of_signs`), and the rules to look at are few: **leaves depend on a token, signs on their
operand, and the operators of chains on what they stand between**. No other node is more than its
constructor.
-/

set_option autoImplicit false

namespace EL

/-- Is this an operator that stands in front of an operand? Parentheses and ranges do not. -/
def UnaryOp.IsSign (op : UnaryOp) : Prop := ∃ k, ofKind? k = some op

namespace Expr

/-- Two operands or more with operators between them. -/
def IsChain : Expr → Prop
  | binary op _ _ _ => op ≠ .boundedRange
  | _ => False

/-- An operand with a sign in front of it. -/
def IsSigned : Expr → Prop
  | unary op _ _ => op.IsSign
  | _ => False

/-- The node of a single token. -/
def IsLeaf : Expr → Prop
  | literal _ _ | var _ _ => True
  | _ => False

end Expr

theorem Token.eq_of_atom? {t : Token} {e : Expr} (h : t.atom? = some e) :
    (∃ v loc, e = .literal v loc) ∨ ∃ x loc, e = .var x loc := by
  unfold Token.atom? at h
  split at h
  case h_3 =>
    split at h <;> cases h
    exact .inl ⟨_, _, rfl⟩
  case h_1 =>
    cases h
    exact .inr ⟨_, _, rfl⟩
  all_goals
    cases h
    try exact .inl ⟨_, _, rfl⟩

theorem UnaryOp.isSign_iff {op : UnaryOp} :
    op.IsSign ↔ op = .plus ∨ op = .minus ∨ op = .logicalNegation ∨ op = .bitwiseNegation := by
  constructor
  · rintro ⟨k, hk⟩
    unfold ofKind? at hk
    split at hk <;> cases hk <;> simp
  · rintro (rfl | rfl | rfl | rfl)
    · exact ⟨.plus, rfl⟩
    · exact ⟨.minus, rfl⟩
    · exact ⟨.exclamation, rfl⟩
    · exact ⟨.tilde, rfl⟩

theorem BinaryOp.ne_boundedRange_of_ofKind? {k : Kind} {op : BinaryOp}
    (h : BinaryOp.ofKind? k = some op) : op ≠ .boundedRange := by
  rintro rfl
  have hmem := List.mem_of_find?_eq_some h
  exact absurd hmem (by decide)

namespace Grammar

/-- What can precede an operator of the kind `k` in a chain: the parentheses that an expression
    begins with, an operand, or a chain that ends in one. -/
inductive Chained (π : Policy) (limit : Option Nat) (b : Nat) : Expr → Kind → Prop where
  | group {e : Expr} {loc : Location} {k : Kind} : Chained π limit b (.unary .group e loc) k
  | operand {e : Expr} {ts : List Token} {k : Kind} (h : Derives π limit b (.operand e) ts k) :
      Chained π limit b e k
  | chain {op : BinaryOp} {e r : Expr} {loc : Location} {ts : List Token} {k : Kind}
      (h : Derives π limit b (.operand r) ts k) : Chained π limit b (.binary op e r loc) k

/-- All trees of a phrase have a property at all nodes; for what continues a chain, if the chain
    has it. -/
def Phrase.All (π : Policy) (limit : Option Nat) (b : Nat) (P : Expr → Prop) (p : Phrase)
    (ts : List Token) (k : Kind) : Prop :=
  match p with
  | .expression e | .term e | .item _ e | .operand e | .simple e => e.All P
  | .tail e e' => Chained π limit b e (ahead ts k) → e.All P → e'.All P
  | .subscripts e e' => e.All P → e'.All P
  | .listing _ es | .items _ es => ∀ e ∈ es, e.All P
  | .entries m m' => (∀ kv ∈ m, kv.2.All P) → ∀ kv ∈ m', kv.2.All P

theorem all_collect {P : Expr → Prop} {es : List Expr} {loc : Location} (hP : P (.array es loc))
    (h : ∀ e ∈ es, e.All P) : (Expr.collect es loc).All P := by
  unfold Expr.collect
  split
  · exact h _ (List.mem_singleton_self _)
  · exact Expr.all_array.mpr ⟨hP, h⟩

theorem all_of_collect {P : Expr → Prop} {es : List Expr} {loc : Location}
    (h : (Expr.collect es loc).All P) : ∀ e ∈ es, e.All P := by
  unfold Expr.collect at h
  split at h
  · exact List.forall_mem_singleton.mpr h
  · exact (Expr.all_array.mp h).2

theorem all_insertEntry {P : Expr → Prop} {key : String} {e : Expr} {m : List (String × Expr)}
    (he : e.All P) (hm : ∀ kv ∈ m, kv.2.All P) :
    ∀ kv ∈ Expr.insertEntry key e m, kv.2.All P := by
  intro kv hkv
  rcases Expr.mem_insertEntry hkv with rfl | hkv
  · exact he
  · exact hm kv hkv

section
variable {π : Policy} {limit : Option Nat} {P : Expr → Prop}

/-- **Laws of the leaves, of signs and of the operators of chains are laws of all nodes**, if all
    other nodes keep them. What is known of the tokens can be used for the leaves. -/
theorem Derives.all_of_signs {Q : Token → Prop} (hatom : ∀ t e, Q t → t.atom? = some e → P e)
    (hP : ∀ e : Expr, ¬ e.IsChain → ¬ e.IsLeaf → ¬ e.IsSigned → P e)
    (hsign : ∀ {b e op loc t ts k}, UnaryOp.ofKind? t = some op →
      Derives π limit b (.operand e) ts k → P (.unary op e loc))
    (hop : ∀ {b e r op loc t ts k}, Chained π limit b e t → BinaryOp.ofKind? t = some op →
      Derives π limit b (.operand r) ts k → P (.binary op e r loc))
    {b : Nat} {p : Phrase} {ts : List Token} {k : Kind} (h : Derives π limit b p ts k)
    (hts : ∀ t ∈ ts, Q t) : p.All π limit b P ts k := by
  -- The only unary nodes besides signs are parentheses and ranges.
  have hunary : ∀ {op : UnaryOp} (e : Expr) (loc : Location),
      op = .group ∨ op = .leftBoundedRange ∨ op = .rightBoundedRange → P (.unary op e loc) := by
    intro op e loc hop'
    refine hP _ id id fun hsign => ?_
    have hop := UnaryOp.isSign_iff.mp hsign
    rcases hop' with rfl | rfl | rfl <;> simp at hop
  induction h with
  | grouped _ _ _ _ iht ihu | parens _ _ _ _ _ iht ihu =>
    obtain ⟨hts, hus⟩ := List.forall_mem_append.mp (List.forall_mem_cons.mp hts).2
    exact ihu (List.forall_mem_cons.mp hus).2 .group
      (Expr.all_unary.mpr ⟨hunary _ _ (.inl rfl), iht hts⟩)
  | ungrouped _ _ ih | bare _ ih => exact ih hts
  | chain ho _ iho ihu =>
    obtain ⟨hts, hus⟩ := List.forall_mem_append.mp hts
    exact ihu hus (.operand ho) (iho hts)
  | tailEnd => exact fun _ he => he
  | tailMore ht hr _ ihr ihu =>
    intro hc he
    obtain ⟨hts, hus⟩ := List.forall_mem_append.mp (List.forall_mem_cons.mp hts).2
    exact ihu hus (.chain hr) (Expr.all_binary.mpr ⟨hop hc ht hr, he, ihr hts⟩)
  | subscripted _ _ _ _ ihs ihu =>
    obtain ⟨hts, hus⟩ := List.forall_mem_append.mp hts
    exact ihu hus (ihs hts)
  | switch _ _ _ ih =>
    exact Expr.all_switch.mpr ⟨hP _ id id id, ih (List.forall_mem_cons.mp hts).2⟩
  | atom ht =>
    have hroot := hatom _ _ (List.forall_mem_singleton.mp hts) ht
    rcases Token.eq_of_atom? ht with ⟨v, loc, rfl⟩ | ⟨x, loc, rfl⟩
    · exact Expr.all_literal.mpr hroot
    · exact Expr.all_var.mpr hroot
  | sign ht ho ih =>
    exact Expr.all_unary.mpr ⟨hsign ht ho, ih (List.forall_mem_cons.mp hts).2⟩
  | array _ _ ih => exact Expr.all_array.mpr ⟨hP _ id id id, ih (List.forall_mem_cons.mp hts).2⟩
  | emptyMap => exact Expr.all_map.mpr ⟨hP _ id id id, by simp⟩
  | map _ _ ih =>
    exact Expr.all_map.mpr ⟨hP _ id id id, ih (List.forall_mem_cons.mp hts).2 (by simp)⟩
  | subscriptsEnd => exact id
  | subscriptsMore _ _ _ ihs ihu =>
    intro he
    obtain ⟨hts, hus⟩ := List.forall_mem_append.mp (List.forall_mem_cons.mp hts).2
    exact ihu hus (Expr.all_subscript.mpr ⟨hP _ id id id, he, all_collect (hP _ id id id) (ihs hts)⟩)
  | noItems => exact fun e he => by cases he
  | someItems _ _ ih => exact ih hts
  | lastItem _ _ ih =>
    exact List.forall_mem_singleton.mpr (ih (List.forall_mem_append.mp hts).1)
  | moreItems _ _ _ ihi ihs =>
    obtain ⟨hts, hus⟩ := List.forall_mem_append.mp hts
    exact List.forall_mem_cons.mpr ⟨ihi hts, ihs (List.forall_mem_cons.mp hus).2⟩
  | bounded _ _ _ ihl ihh | boundedIndex _ _ _ _ ihl ihh =>
    obtain ⟨hts, hus⟩ := List.forall_mem_append.mp hts
    have hh := ihh (List.forall_mem_cons.mp hus).2
    exact Expr.all_binary.mpr ⟨hP _ (fun h => h rfl) id id, ihl hts, hh⟩
  | leftBounded _ _ ih =>
    exact Expr.all_unary.mpr
      ⟨hunary _ _ (.inr (.inl rfl)), ih (List.forall_mem_append.mp hts).1⟩
  | rightBounded _ _ ih =>
    exact Expr.all_unary.mpr ⟨hunary _ _ (.inr (.inr rfl)), ih (List.forall_mem_cons.mp hts).2⟩
  | lastEntry _ _ _ _ ih =>
    have hts := (List.forall_mem_cons.mp (List.forall_mem_cons.mp hts).2).2
    exact all_insertEntry (ih (List.forall_mem_append.mp hts).1)
  | moreEntries _ _ _ _ _ ihe ihm =>
    have hts := (List.forall_mem_cons.mp (List.forall_mem_cons.mp hts).2).2
    obtain ⟨hts, hus⟩ := List.forall_mem_append.mp hts
    exact fun hm => ihm (List.forall_mem_cons.mp hus).2 (all_insertEntry (ihe hts) hm)

/-- **Laws of the leaves and of the operators of chains are laws of all nodes**, if all other nodes
    keep them. -/
theorem Derives.all {Q : Token → Prop} (hatom : ∀ t e, Q t → t.atom? = some e → P e)
    (hP : ∀ e : Expr, ¬ e.IsChain → ¬ e.IsLeaf → P e)
    (hop : ∀ {b e r op loc t ts k}, Chained π limit b e t → BinaryOp.ofKind? t = some op →
      Derives π limit b (.operand r) ts k → P (.binary op e r loc))
    {b : Nat} {p : Phrase} {ts : List Token} {k : Kind} (h : Derives π limit b p ts k)
    (hts : ∀ t ∈ ts, Q t) : p.All π limit b P ts k :=
  h.all_of_signs hatom (fun e hc hl _ => hP e hc hl) (fun _ _ => hP _ id id) hop hts

/-- The operators of chains are the only nodes that know of each other. -/
theorem Derives.all_of_chains (hP : ∀ e : Expr, ¬ e.IsChain → P e)
    (hop : ∀ {b e r op loc t ts k}, Chained π limit b e t → BinaryOp.ofKind? t = some op →
      Derives π limit b (.operand r) ts k → P (.binary op e r loc))
    {b : Nat} {p : Phrase} {ts : List Token} {k : Kind} (h : Derives π limit b p ts k) :
    p.All π limit b P ts k := by
  refine h.all (Q := fun _ => True) (fun t e _ ht => ?_) (fun e he _ => hP e he) hop fun _ _ => trivial
  rcases Token.eq_of_atom? ht with ⟨v, loc, rfl⟩ | ⟨x, loc, rfl⟩ <;> exact hP _ id

end

end Grammar

end EL
