import EL.Proofs.Grammar.Language
import EL.Proofs.Grammar.NodeLaws

/-!
# The order of operators

Binary operators have no precedence: a chain of operands is meant to be read as the left fold of
its operators, in the order they are written in. `Policy.flat` is the grammar of that meaning. It
is the grammar of the parser but for one thing: parentheses in the place of an operand are the
operand, and nothing after them is.

**The parser reads a chain so just if no operator follows the parentheses of an operand that has
something in front of it**, be that an operator or a sign (`parseStrict_leftFold_iff`). If one
does, all that follows becomes part of that operand, as in `a - (b) - c`. Nothing else can make a
chain the right operand of an operator.
-/

set_option autoImplicit false

namespace EL

open EL.Parser

namespace Expr

/-- Parentheses, with signs in front of them or without. -/
def EndsInGroup : Expr → Prop
  | unary .group _ _ => True
  | unary _ e _ => e.EndsInGroup
  | _ => False

/-- Does a chain end in parentheses that have an operator or a sign in front of them? -/
def HoldsOn : Expr → Prop
  | binary op _ r _ => op ≠ .boundedRange ∧ r.EndsInGroup
  | unary .group _ _ => False
  | unary _ e _ => e.EndsInGroup
  | _ => False

/-- Is this an operator that follows such parentheses? -/
def Trapped : Expr → Prop
  | binary op l _ _ => op ≠ .boundedRange ∧ l.HoldsOn
  | _ => False

/-- Is the first operand of a chain in parentheses? -/
def BeginsInGroup : Expr → Prop
  | unary .group _ _ => True
  | binary op l _ _ => op ≠ .boundedRange ∧ l.BeginsInGroup
  | _ => False

/-- If this is an operator of a chain, then its right operand is no chain. -/
def RightSimple : Expr → Prop
  | binary op _ r _ => op ≠ .boundedRange → ¬ r.IsChain
  | _ => True

/-- If this is an operator of a chain, then it follows no such parentheses, and its right operand
    is a chain only if that begins with parentheses. -/
def WellChained : Expr → Prop
  | binary op l r _ => op ≠ .boundedRange → ¬ l.HoldsOn ∧ (r.IsChain → r.BeginsInGroup)
  | _ => True

theorem WellChained.not_trapped : ∀ {e : Expr}, e.WellChained → ¬ e.Trapped
  | binary _ _ _ _, h => fun ht => (h ht.1).1 ht.2
  | literal _ _, _ | var _ _, _ | unary _ _ _, _ | array _ _, _ | map _ _, _ | switch _ _, _
  | subscript _ _ _, _ => id

end Expr

namespace Grammar

/-- The choices of a reader from left to right: an operand in parentheses ends with them. -/
def Policy.flat : Policy := { Policy.longest with endsTail := fun us _ => us = [] }

/-! ## The chains that the parser builds -/

/-- What is known of the root of a phrase before a token of the kind `k`, if the choices are those
    of the parser: after parentheses that have something in front of them the chain is at its end,
    and an operand that is a chain begins with parentheses. -/
def Phrase.EndsWhereItCan (p : Phrase) (ts : List Token) (k : Kind) : Prop :=
  match p with
  | .operand e | .simple e =>
    (e.EndsInGroup ∨ e.HoldsOn → EndsChain k) ∧ (e.IsChain → e.BeginsInGroup)
  | .subscripts e e' => ts = [] ∧ e' = e ∨ ∃ x i loc, e' = .subscript x i loc
  | .tail e e' => e.BeginsInGroup → e'.BeginsInGroup
  | _ => True

theorem endsWhereItCan_of_not {e : Expr} (hg : ¬ (e.EndsInGroup ∨ e.HoldsOn)) (hc : ¬ e.IsChain)
    (k : Kind) : (Phrase.simple e).EndsWhereItCan [] k :=
  ⟨fun h => absurd h hg, fun h => absurd h hc⟩

theorem Derives.endsWhereItCan {limit : Option Nat} {b : Nat} {p : Phrase} {ts : List Token}
    {k : Kind} (h : Derives .longest limit b p ts k) : p.EndsWhereItCan ts k := by
  induction h with
  | tailEnd => exact id
  | tailMore ht _ _ _ ihu => exact fun he => ihu ⟨BinaryOp.ne_boundedRange_of_ofKind? ht, he⟩
  | subscripted _ _ _ _ ihs ihu =>
    rcases ihu with ⟨rfl, rfl⟩ | ⟨x, i, loc, rfl⟩
    · exact ihs
    · exact endsWhereItCan_of_not (fun h => h.elim id id) id _
  | switch | array | emptyMap | map =>
    exact endsWhereItCan_of_not (fun h => h.elim id id) id _
  | atom ht =>
    rcases Token.eq_of_atom? ht with ⟨v, loc, rfl⟩ | ⟨x, loc, rfl⟩ <;>
      exact endsWhereItCan_of_not (fun h => h.elim id id) id _
  | sign ht _ ih =>
    refine ⟨fun h => ih.1 (.inl ?_), fun h => absurd h id⟩
    unfold UnaryOp.ofKind? at ht
    split at ht <;> cases ht <;> exact h.elim id id
  | parens _ _ _ _ hk _ ihu => exact ⟨fun _ => hk, fun _ => ihu trivial⟩
  | subscriptsEnd => exact .inl ⟨rfl, rfl⟩
  | subscriptsMore _ _ _ _ ihu =>
    rcases ihu with ⟨-, rfl⟩ | h
    · exact .inr ⟨_, _, _, rfl⟩
    · exact .inr h
  | _ => exact trivial

/-- In the trees of the parser no operator follows parentheses that have something in front of
    them, and chains that are right operands begin with parentheses. -/
theorem Derives.wellChained {limit : Option Nat} {b : Nat} {e : Expr} {ts : List Token} {k : Kind}
    (h : Derives .longest limit b (.expression e) ts k) : e.All Expr.WellChained := by
  refine h.all_of_chains (fun e he => ?_) (fun {b e r op loc t ts k} hc ht hr _ => ?_)
  · cases e <;> first | exact trivial | exact fun hne => absurd hne he
  · refine ⟨fun hh => ?_, hr.endsWhereItCan.2⟩
    suffices EndsChain t by simp [EndsChain, ht] at this
    cases hc with
    | group => cases hh
    | operand h => exact h.endsWhereItCan.1 (.inr hh)
    | chain h => exact h.endsWhereItCan.1 (.inl hh.2)

/-! ## Chains from left to right -/

/-- What is known of the root of a phrase if parentheses are an operand by themselves. -/
def Phrase.IsSimple (p : Phrase) (ts : List Token) : Prop :=
  match p with
  | .operand e | .simple e => ¬ e.IsChain
  | .subscripts e e' => e' = e ∨ ¬ e'.IsChain
  | .tail e e' => ts = [] → e' = e
  | _ => True

theorem Derives.isSimple {limit : Option Nat} {b : Nat} {p : Phrase} {ts : List Token} {k : Kind}
    (h : Derives .flat limit b p ts k) : p.IsSimple ts := by
  induction h with
  | tailEnd => exact fun _ => rfl
  | tailMore => exact fun h => by cases h
  | subscripted _ _ _ _ ihs ihu =>
    rcases ihu with rfl | h
    · exact ihs
    · exact h
  | switch | array | emptyMap | map | sign => exact id
  | atom ht => rcases Token.eq_of_atom? ht with ⟨v, loc, rfl⟩ | ⟨x, loc, rfl⟩ <;> exact id
  | parens _ _ _ _ hk _ ihu =>
    rw [ihu hk]
    exact id
  | subscriptsEnd => exact .inl rfl
  | subscriptsMore _ _ _ _ ihu =>
    rcases ihu with rfl | h
    · exact .inr id
    · exact .inr h
  | _ => exact trivial

theorem Derives.rightSimple {limit : Option Nat} {b : Nat} {e : Expr} {ts : List Token} {k : Kind}
    (h : Derives .flat limit b (.expression e) ts k) : e.All Expr.RightSimple := by
  refine h.all_of_chains (fun e he => ?_) (fun _ _ hr _ => hr.isSimple)
  cases e <;> first | exact trivial | exact fun hne => absurd hne he

/-! ## From the one to the other -/

/-- Does no operator follow parentheses that have something in front of them? -/
def Untrapped (e : Expr) : Prop := e.All fun n => ¬ n.Trapped

/-- Is this a token that can follow a whole chain? -/
def Follows (k : Kind) : Prop := EndsChain k ∧ k ≠ .openBracket

/-- The parser reads the phrase, and as this tree if nothing in the tree is trapped. -/
def Reads (phrase : Expr → Phrase) (e : Expr) (ts : List Token) (k : Kind) : Prop :=
  ∃ x, (Untrapped e → x = e) ∧ ∀ b, Derives .longest none b (phrase x) ts k

/-- The parser goes on with these tokens from any tree, and it goes on from `e` to `e'` if `q`. -/
def GoesOn (phrase : Expr → Expr → Phrase) (q : Prop) (e e' : Expr) (ts : List Token) (k : Kind) :
    Prop :=
  ∀ x, ∃ x', (x = e → q → x' = e') ∧ ∀ b, Derives .longest none b (phrase x x') ts k

/-- The parser reads an operand, as `Reads` says, unless it would go on after its parentheses. If
    it does, it takes a whole tail into the operand. Behind bare parentheses that makes no
    difference to the tree. -/
def ReadsOperand (phrase : Expr → Phrase) (e : Expr) (ts : List Token) (k : Kind) : Prop :=
  ((e.EndsInGroup → EndsChain k) → Reads phrase e ts k) ∧
    (e.EndsInGroup → ∀ (q : Prop) (e' : Expr) (us : List Token) (k' : Kind), Follows k' →
      (q → Untrapped e) → GoesOn .tail q e e' us k' →
      ∃ y, (¬ e.HoldsOn → q → y = e') ∧ ∀ b, Derives .longest none b (phrase y) (ts ++ us) k')

/-- The same keys, with the same values where nothing is trapped. -/
def Similar : List (String × Expr) → List (String × Expr) → Prop
  | [], [] => True
  | (k, x) :: ms, (l, e) :: ns => k = l ∧ (Untrapped e → x = e) ∧ Similar ms ns
  | _, _ => False

theorem similar_insertEntry {key : String} {x e : Expr} (he : Untrapped e → x = e) :
    ∀ {ms ns : List (String × Expr)}, Similar ms ns →
      Similar (Expr.insertEntry key x ms) (Expr.insertEntry key e ns)
  | [], [], _ => ⟨rfl, he, trivial⟩
  | (k, y) :: ms, (l, f) :: ns, ⟨hk, hy, h⟩ => by
    subst hk
    unfold Expr.insertEntry
    split
    · exact ⟨rfl, he, rfl, hy, h⟩
    · split
      · exact ⟨rfl, he, h⟩
      · exact ⟨rfl, hy, similar_insertEntry he h⟩

theorem eq_of_similar : ∀ {ms ns : List (String × Expr)}, Similar ms ns →
    (∀ kv ∈ ns, Untrapped kv.2) → ms = ns
  | [], [], _, _ => rfl
  | (k, x) :: ms, (l, e) :: ns, ⟨hk, hx, h⟩, hu => by
    rw [hk, hx (hu (l, e) List.mem_cons_self),
      eq_of_similar h fun kv hkv => hu kv (List.mem_cons_of_mem _ hkv)]

theorem follows_closer (s : Shape) : Follows s.closer := by
  rcases s.closer_eq with h | h <;> rw [h] <;> exact ⟨rfl, by decide⟩

/-- What the parser makes of a phrase that is read from left to right. -/
def Phrase.Lengthens (p : Phrase) (ts : List Token) (k : Kind) : Prop :=
  match p with
  | .expression e => Follows k → Reads .expression e ts k
  | .term e => Follows k → Reads .term e ts k
  | .tail e e' => Follows k → (Untrapped e' → Untrapped e ∧ (e.HoldsOn → ts = [])) ∧
    GoesOn .tail (Untrapped e') e e' ts k
  | .operand e => ReadsOperand .operand e ts k
  | .simple e => ReadsOperand .simple e ts k
  | .subscripts e e' => (Untrapped e' → Untrapped e) ∧
    (ts = [] ∧ e' = e ∨ ahead ts k = .openBracket ∧ ¬ e'.EndsInGroup) ∧
    GoesOn .subscripts (Untrapped e') e e' ts k
  | .item s e => Follows k → ∀ s', s.Like s' → Reads (.item s') e ts k
  | .listing s es => ∀ s', s.Like s' → ∃ xs, ((∀ e ∈ es, Untrapped e) → xs = es) ∧
    ∀ b, Derives .longest none b (.listing s' xs) ts k
  | .items s es => ∀ s', s.Like s' → ∃ xs, ((∀ e ∈ es, Untrapped e) → xs = es) ∧
    ∀ b, Derives .longest none b (.items s' xs) ts k
  | .entries m m' => ∀ n, Similar n m → ∃ n', Similar n' m' ∧
    ∀ b, Derives .longest none b (.entries n n') ts k

section
variable {ts us : List Token} {k : Kind} {e e' : Expr}

theorem reads_chain (ho : ReadsOperand .operand e ts (ahead us k))
    (hu : (Phrase.tail e e').Lengthens us k) (hk : Follows k) : Reads .term e' (ts ++ us) k := by
  obtain ⟨hun, hgo⟩ := hu hk
  by_cases hc : e.EndsInGroup → EndsChain (ahead us k)
  · obtain ⟨x, hx, hd⟩ := ho.1 hc
    obtain ⟨x', hx', hd'⟩ := hgo x
    exact ⟨x', fun h => hx' (hx (hun h).1) h, fun b => .chain (hd b) (hd' b)⟩
  · -- An operator follows parentheses, and all of the tail goes into the operand.
    obtain ⟨hg, hop⟩ := Classical.not_imp.mp hc
    obtain ⟨y, hy, hd⟩ := ho.2 hg (Untrapped e') e' us k hk (fun h => (hun h).1) hgo
    refine ⟨y, fun h => hy (fun hh => hop ?_) h, fun b => ?_⟩
    · rw [(hun h).2 hh]
      exact hk.1
    · simpa using Derives.chain (hd b) .tailEnd

theorem reads_tailMore {t : Token} {op : BinaryOp} {r : Expr}
    (ht : BinaryOp.ofKind? t.kind = some op) (hr : ReadsOperand .operand r ts (ahead us k))
    (hu : (Phrase.tail (.binary op e r t.location) e').Lengthens us k) :
    (Phrase.tail e e').Lengthens (t :: (ts ++ us)) k := by
  intro hk
  obtain ⟨hun, hgo⟩ := hu hk
  have hop := BinaryOp.ne_boundedRange_of_ofKind? ht
  refine ⟨fun h => ?_, fun x => ?_⟩
  · obtain ⟨hnode, he, -⟩ := Expr.all_binary.mp (hun h).1
    exact ⟨he, fun hh => absurd ⟨hop, hh⟩ hnode⟩
  · by_cases hc : r.EndsInGroup → EndsChain (ahead us k)
    · obtain ⟨y, hy, hd⟩ := hr.1 hc
      obtain ⟨x', hx', hd'⟩ := hgo (.binary op x y t.location)
      refine ⟨x', fun hx h => hx' ?_ h, fun b => .tailMore ht (hd b) (hd' b)⟩
      rw [hx, hy (Expr.all_binary.mp (hun h).1).2.2]
    · obtain ⟨hg, hne⟩ := Classical.not_imp.mp hc
      have hgo' : GoesOn .tail False r r us k := fun z => by
        obtain ⟨x', -, hd⟩ := hgo z
        exact ⟨x', fun _ h => h.elim, hd⟩
      obtain ⟨y, -, hd⟩ := hr.2 hg False r us k hk False.elim hgo'
      refine ⟨.binary op x y t.location, fun _ h => absurd ?_ hne, fun b => ?_⟩
      · rw [(hun h).2 ⟨hop, hg⟩]
        exact hk.1
      · simpa using Derives.tailMore ht (hd b) .tailEnd

theorem reads_subscripted (hs : ReadsOperand .simple e ts (ahead us k))
    (hu : (Phrase.subscripts e e').Lengthens us k) (hk : k ≠ .openBracket) :
    ReadsOperand .operand e' (ts ++ us) k := by
  have hb : ∀ b, Admits none (b + 1) := fun b n hn => by cases hn
  obtain ⟨hun, hroot, hgo⟩ := hu
  constructor
  · intro hc
    have hc' : e.EndsInGroup → EndsChain (ahead us k) := by
      rcases hroot with ⟨rfl, rfl⟩ | ⟨hus, -⟩
      · exact hc
      · rw [hus]
        exact fun _ => by rfl
    obtain ⟨x, hx, hd⟩ := hs.1 hc'
    obtain ⟨x', hx', hd'⟩ := hgo x
    exact ⟨x', fun h => hx' (hx (hun h)) h, fun b => .subscripted (hb b) (hd b) (hd' b) hk⟩
  · intro hg
    rcases hroot with ⟨rfl, rfl⟩ | ⟨-, hn⟩
    · intro q e'' vs k' hk' hq hgo'
      obtain ⟨y, hy, hd⟩ := hs.2 hg q e'' vs k' hk' hq hgo'
      refine ⟨y, hy, fun b => ?_⟩
      rw [List.append_nil]
      simpa using Derives.subscripted (hb b) (hd b) .subscriptsEnd hk'.2
    · exact absurd hg hn

theorem reads_sign {t : Token} {op : UnaryOp} (ht : UnaryOp.ofKind? t.kind = some op)
    (ho : ReadsOperand .operand e ts k) :
    ReadsOperand .simple (.unary op e t.location) (t :: ts) k := by
  have hg : (Expr.unary op e t.location).EndsInGroup = e.EndsInGroup ∧
      (Expr.unary op e t.location).HoldsOn = e.EndsInGroup := by
    unfold UnaryOp.ofKind? at ht
    split at ht <;> cases ht <;> exact ⟨rfl, rfl⟩
  rw [ReadsOperand, hg.1, hg.2]
  constructor
  · intro hc
    obtain ⟨x, hx, hd⟩ := ho.1 hc
    refine ⟨.unary op x t.location, fun h => ?_, fun b => .sign ht (hd (b + 1))⟩
    rw [hx (Expr.all_unary.mp h).2]
  · intro he q e' us k' hk' hq hgo
    have hgo' : GoesOn .tail False e e us k' := fun z => by
      obtain ⟨x', -, hd⟩ := hgo z
      exact ⟨x', fun _ h => h.elim, hd⟩
    obtain ⟨y, -, hd⟩ := ho.2 he False e us k' hk' False.elim hgo'
    exact ⟨.unary op y t.location, fun hn => absurd he hn, fun b => .sign ht (hd (b + 1))⟩

theorem reads_parens {o c : Token} (ho : o.kind = .openParen) (hc : c.kind = .closeParen)
    (ht : Reads .term e ts .closeParen) :
    ReadsOperand .simple (.unary .group e o.location) (o :: (ts ++ [c])) k := by
  obtain ⟨x, hx, hd⟩ := ht
  constructor
  · intro hk
    refine ⟨.unary .group x o.location, fun h => ?_, fun b => ?_⟩
    · rw [hx (Expr.all_unary.mp h).2]
    · exact .parens ho hc (hd (b + 1)) .tailEnd (hk trivial)
  · intro _ q e' us k' hk' hq hgo
    obtain ⟨x', hx', hd'⟩ := hgo (.unary .group x o.location)
    refine ⟨x', fun _ h => hx' ?_ h, fun b => ?_⟩
    · rw [hx (Expr.all_unary.mp (hq h)).2]
    · simpa using Derives.parens ho hc (hd (b + 1)) (hd' (b + 1)) hk'.1

/-- An operand that does not end in parentheses. -/
theorem readsOperand_of_reads {phrase : Expr → Phrase} (hg : ¬ e.EndsInGroup)
    (h : Reads phrase e ts k) : ReadsOperand phrase e ts k :=
  ⟨fun _ => h, fun he => absurd he hg⟩

theorem reads_subscriptsMore {o : Token} {es : List Expr} (ho : o.kind = .openBracket)
    (hs : (Phrase.listing (.index e) es).Lengthens ts (ahead us k))
    (hu : (Phrase.subscripts (.subscript e (.collect es o.location) o.location) e').Lengthens us k) :
    (Phrase.subscripts e e').Lengthens (o :: (ts ++ us)) k := by
  obtain ⟨hun, hroot, hgo⟩ := hu
  refine ⟨fun h => ?_, .inr ⟨ho, ?_⟩, fun x => ?_⟩
  · exact (Expr.all_subscript.mp (hun h)).2.1
  · rcases hroot with ⟨-, rfl⟩ | ⟨-, hn⟩
    · exact id
    · exact hn
  · obtain ⟨xs, hxs, hd⟩ := hs (.index x) trivial
    obtain ⟨x', hx', hd'⟩ := hgo (.subscript x (.collect xs o.location) o.location)
    refine ⟨x', fun hx h => hx' ?_ h, fun b => .subscriptsMore ho (hd b) (hd' b)⟩
    rw [hx, hxs (all_of_collect (Expr.all_subscript.mp (hun h)).2.2)]

/-- **Whatever is read from left to right, the parser reads too**, and as the same tree if nothing
    in it is trapped. -/
theorem Derives.lengthens {b : Nat} {p : Phrase} (h : Derives .flat none b p ts k) :
    p.Lengthens ts k := by
  induction h with
  | grouped ho hc _ _ iht ihu =>
    intro hk
    obtain ⟨x, hx, hd⟩ := iht ⟨rfl, by decide⟩
    obtain ⟨hun, hgo⟩ := ihu hk
    obtain ⟨x', hx', hd'⟩ := hgo (.unary .group x _)
    refine ⟨x', fun h => hx' ?_ h, fun b => .grouped ho hc (hd b) (hd' b)⟩
    rw [hx (Expr.all_unary.mp (hun h).1).2]
  | ungrouped hb _ ih =>
    intro hk
    obtain ⟨x, hx, hd⟩ := ih hk
    exact ⟨x, hx, fun b => .ungrouped hb (hd b)⟩
  | chain _ _ iho ihu => exact reads_chain iho ihu
  | tailEnd => exact fun _ => ⟨fun h => ⟨h, fun _ => rfl⟩, fun x => ⟨x, fun h _ => h, fun _ => .tailEnd⟩⟩
  | tailMore ht _ _ ihr ihu => exact reads_tailMore ht ihr ihu
  | subscripted _ _ _ hk ihs ihu => exact reads_subscripted ihs ihu hk
  | switch _ ho _ ih =>
    obtain ⟨xs, hxs, hd⟩ := ih .switch trivial
    refine readsOperand_of_reads id ⟨.switch xs _, fun h => ?_, fun b => .switch nofun ho (hd b)⟩
    rw [hxs (Expr.all_switch.mp h).2]
  | atom ht =>
    refine readsOperand_of_reads ?_ ⟨_, fun _ => rfl, fun _ => .atom ht⟩
    rcases Token.eq_of_atom? ht with ⟨v, loc, rfl⟩ | ⟨x, loc, rfl⟩ <;> exact id
  | sign ht _ ih => exact reads_sign ht ih
  | parens ho hc _ hu hk iht _ =>
    obtain rfl : _ = [] := hk
    rw [hu.isSimple rfl]
    exact reads_parens ho hc (iht ⟨rfl, by decide⟩)
  | array ho _ ih =>
    obtain ⟨xs, hxs, hd⟩ := ih .array trivial
    refine readsOperand_of_reads id ⟨.array xs _, fun h => ?_, fun b => .array ho (hd b)⟩
    rw [hxs (Expr.all_array.mp h).2]
  | emptyMap ho hc => exact readsOperand_of_reads id ⟨_, fun _ => rfl, fun _ => .emptyMap ho hc⟩
  | map ho _ ih =>
    obtain ⟨n, hn, hd⟩ := ih [] trivial
    refine readsOperand_of_reads id ⟨.map n _, fun h => ?_, fun b => .map ho (hd b)⟩
    rw [eq_of_similar hn (Expr.all_map.mp h).2]
  | subscriptsEnd =>
    exact ⟨id, .inl ⟨rfl, rfl⟩, fun x => ⟨x, fun h _ => h, fun _ => .subscriptsEnd⟩⟩
  | subscriptsMore ho _ _ ihs ihu => exact reads_subscriptsMore ho ihs ihu
  | noItems hc => exact fun s' hs => ⟨[], fun _ => rfl, fun _ => .noItems (hs.closer ▸ hc)⟩
  | someItems hsw _ ih =>
    intro s' hs
    obtain ⟨xs, hxs, hd⟩ := ih s' hs
    exact ⟨xs, hxs, fun b => .someItems (fun h => hsw (hs.switch h)) (hd b)⟩
  | lastItem _ hc ih =>
    intro s' hs
    obtain ⟨x, hx, hd⟩ := ih (follows_closer _) s' hs
    refine ⟨[x], fun h => ?_, fun b => .lastItem (hs.closer ▸ hd b) (hs.closer ▸ hc)⟩
    rw [hx (h _ (List.mem_singleton_self _))]
  | moreItems _ hc _ ihi ihs =>
    intro s' hs
    obtain ⟨x, hx, hd⟩ := ihi ⟨rfl, by decide⟩ s' hs
    obtain ⟨xs, hxs, hd'⟩ := ihs s' hs
    refine ⟨x :: xs, fun h => ?_, fun b => .moreItems (hd b) hc (hd' b)⟩
    obtain ⟨he, hes⟩ := List.forall_mem_cons.mp h
    rw [hx he, hxs hes]
  | bare _ ih =>
    intro hk s' _
    obtain ⟨x, hx, hd⟩ := ih hk
    exact ⟨x, hx, fun b => .bare (hd (b + 1))⟩
  | bounded _ ht _ ihl ihh =>
    intro hk s' hs
    obtain ⟨lo, hlo, hdl⟩ := ihl ⟨rfl, by decide⟩
    obtain ⟨hi, hhi, hdh⟩ := ihh hk
    obtain rfl : s' = .array := by cases s' <;> first | rfl | cases hs
    refine ⟨.binary .boundedRange lo hi _, fun h => ?_, fun b => .bounded (hdl _) ht (hdh _)⟩
    obtain ⟨-, hul, huh⟩ := Expr.all_binary.mp h
    rw [hlo hul, hhi huh]
  | boundedIndex _ ht hb _ ihl ihh =>
    intro hk s' hs
    obtain ⟨lo, hlo, hdl⟩ := ihl ⟨rfl, by decide⟩
    obtain ⟨hi, hhi, hdh⟩ := ihh hk
    obtain ⟨y, rfl⟩ := hs.index
    refine ⟨.binary .boundedRange lo hi _, fun h => ?_, fun b => .boundedIndex (hdl _) ht hb (hdh _)⟩
    obtain ⟨-, hul, huh⟩ := Expr.all_binary.mp h
    rw [hlo hul, hhi huh]
  | leftBounded _ ht ih =>
    intro hk s' hs
    obtain ⟨lo, hlo, hd⟩ := ih ⟨rfl, by decide⟩
    obtain ⟨y, rfl⟩ := hs.index
    refine ⟨.unary .leftBoundedRange lo _, fun h => ?_, fun b => .leftBounded (hd _) ht⟩
    rw [hlo (Expr.all_unary.mp h).2]
  | rightBounded ht _ ih =>
    intro hk s' hs
    obtain ⟨hi, hhi, hd⟩ := ih hk
    obtain ⟨y, rfl⟩ := hs.index
    refine ⟨.unary .rightBoundedRange hi _, fun h => ?_, fun b => .rightBounded ht (hd _)⟩
    rw [hhi (Expr.all_unary.mp h).2]
  | lastEntry ht hn _ hc ih =>
    intro n hsim
    obtain ⟨x, hx, hd⟩ := ih ⟨rfl, by decide⟩
    exact ⟨_, similar_insertEntry hx hsim, fun b => .lastEntry ht hn (hd _) hc⟩
  | moreEntries ht hn _ hc _ ihe ihm =>
    intro n hsim
    obtain ⟨x, hx, hd⟩ := ihe ⟨rfl, by decide⟩
    obtain ⟨n', hsim', hd'⟩ := ihm _ (similar_insertEntry hx hsim)
    exact ⟨n', hsim', fun b => .moreEntries ht hn (hd _) hc (hd' b)⟩

end

end Grammar

/-- The tokens of a text are read as this tree from left to right. -/
def IsLeftFold (text : String) (e : Expr) : Prop :=
  ∃ ts, (Cursor.ofText text).Scans ts ∧
    Grammar.Derives .flat none 0 (.expression e) ts .endOfInput

/-- **When chains are read from left to right.** Where a text has a reading from left to right, it
    is accepted, and that reading is what the parser returns just if in it no operator follows the
    parentheses of an operand that has something in front of it. No operator of such a reading has
    a chain on its right; an operator of any tree that the parser returns has one there only if
    it begins with parentheses. -/
theorem parseStrict_leftFold_iff (text : String) (e : Expr) :
    (IsLeftFold text e →
      (∃ x, parseStrict text = .ok x) ∧
      (parseStrict text = .ok e ↔ e.All fun n => ¬ n.Trapped) ∧ e.All Expr.RightSimple) ∧
    (parseStrict text = .ok e → e.All Expr.WellChained) := by
  constructor
  · rintro ⟨ts, hts, hd⟩
    obtain ⟨x, hx, hdx⟩ := hd.lengthens ⟨rfl, by decide⟩
    have hparse : parseStrict text = .ok x := parse_strict_iff_derives.mpr ⟨ts, hts, hdx 0⟩
    refine ⟨⟨x, hparse⟩, ⟨fun h => ?_, fun h => ?_⟩, hd.rightSimple⟩
    · obtain ⟨us, -, hd'⟩ := parse_strict_iff_derives.mp h
      exact hd'.wellChained.imp fun n hn => hn.not_trapped
    · rw [← hx h]
      exact hparse
  · intro h
    obtain ⟨us, -, hd⟩ := parse_strict_iff_derives.mp h
    exact hd.wellChained

/-- The tree of `a - (b) - c` as it is meant: the operator that was written last is its root. -/
def leftFoldOfParentheses : Expr :=
  .binary .subtraction
    (.binary .subtraction (.var "a" ⟨1, 1⟩) (.unary .group (.var "b" ⟨1, 6⟩) ⟨1, 5⟩) ⟨1, 3⟩)
    (.var "c" ⟨1, 11⟩) ⟨1, 9⟩

theorem isLeftFold_parentheses : IsLeftFold "a - (b) - c" leftFoldOfParentheses := by
  have hscans : (Cursor.ofText "a - (b) - c").tokens = .ok (
      [⟨.name, "a", 0, 1, 1⟩, ⟨.minus, "-", 2, 1, 3⟩, ⟨.openParen, "(", 4, 1, 5⟩,
        ⟨.name, "b", 5, 1, 6⟩, ⟨.closeParen, ")", 6, 1, 7⟩, ⟨.minus, "-", 8, 1, 9⟩,
        ⟨.name, "c", 10, 1, 11⟩] ++ [⟨.endOfInput, "", 11, 1, 12⟩]) :=
    Cursor.tokens_of_scanWithin 9 rfl
  have hb : Grammar.Admits none 1 := fun n hn => by cases hn
  have ha : Grammar.Derives .flat none 0 (.operand (.var "a" ⟨1, 1⟩)) ([⟨.name, "a", 0, 1, 1⟩] ++ [])
      .minus := .subscripted hb (.atom rfl) .subscriptsEnd nofun
  have hgroup : Grammar.Derives .flat none 0 (.simple (.unary .group (.var "b" ⟨1, 6⟩) ⟨1, 5⟩))
      (⟨.openParen, "(", 4, 1, 5⟩ :: ([⟨.name, "b", 5, 1, 6⟩] ++ [⟨.closeParen, ")", 6, 1, 7⟩]))
      .minus :=
    .parens rfl rfl (.term_of_atom nofun rfl) .tailEnd rfl
  have hparens := Grammar.Derives.subscripted (π := .flat) (k := .minus) hb hgroup .subscriptsEnd nofun
  have hc : Grammar.Derives .flat none 0 (.operand (.var "c" ⟨1, 11⟩))
      ([⟨.name, "c", 10, 1, 11⟩] ++ []) .endOfInput :=
    .subscripted hb (.atom rfl) .subscriptsEnd nofun
  have htail := Grammar.Derives.tailMore (t := ⟨.minus, "-", 2, 1, 3⟩) (e := .var "a" ⟨1, 1⟩) rfl
    hparens (.tailMore (t := ⟨.minus, "-", 8, 1, 9⟩) rfl hc .tailEnd)
  have hterm := Grammar.Derives.chain ha htail
  exact ⟨_, ⟨_, hscans, rfl⟩, .ungrouped nofun hterm⟩

/-- It is trapped, and so the text is read as another tree. -/
theorem parseStrict_ne_leftFold :
    (∃ x, parseStrict "a - (b) - c" = .ok x) ∧
      parseStrict "a - (b) - c" ≠ .ok leftFoldOfParentheses := by
  obtain ⟨hx, hiff, -⟩ :=
    (parseStrict_leftFold_iff "a - (b) - c" leftFoldOfParentheses).1 isLeftFold_parentheses
  refine ⟨hx, fun h => (hiff.mp h).root ⟨nofun, nofun, trivial⟩⟩

/-- The parser does make a chain the right operand of an operator. -/
theorem not_all_rightSimple :
    ¬ ∀ text e, parseStrict text = .ok e → e.All Expr.RightSimple := by
  intro h
  have hparse : parseStrict "a - (b) - c" = .ok (
      .binary .subtraction (.var "a" ⟨1, 1⟩)
        (.binary .subtraction (.unary .group (.var "b" ⟨1, 6⟩) ⟨1, 5⟩) (.var "c" ⟨1, 11⟩) ⟨1, 9⟩)
        ⟨1, 3⟩) :=
    parseStrict_eq_ok_iff.mpr ⟨_, Cursor.tokens_of_scanWithin 9 rfl, rfl⟩
  exact (h _ _ hparse).root nofun nofun

end EL
