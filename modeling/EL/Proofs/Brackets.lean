import EL.Proofs.Reprint

/-!
# Brackets are never added

A tree is printed with at most as many opening brackets as it was read from. The printer drops a
bracket where an array is the only index of a subscript and has not exactly one element, **and the
elements of an array are the only place where a range up to a switch can come from**. So a tree that
is read from its own tokens, without a bracket to drop, lists no such range (`Derives.kept`).

The count goes through a derivation in step with what it proves: `NoMore m n P` says that `m` is at
most `n`, and that `P` holds if nothing was dropped.
-/

set_option autoImplicit false

namespace EL

open EL.Parser (Shape)

/-- How many brackets are opened? -/
def Token.brackets (ts : List Token) : Nat := ts.countP fun t => t.kind = .openBracket

namespace Token

@[simp] theorem brackets_nil : brackets [] = 0 := rfl

@[simp] theorem brackets_append (ts us : List Token) :
    brackets (ts ++ us) = brackets ts + brackets us := List.countP_append

@[simp] theorem brackets_cons (t : Token) (ts : List Token) :
    brackets (t :: ts) = brackets ts + if t.kind = .openBracket then 1 else 0 := by
  simp [brackets, List.countP_cons]

/-- Commas do not count. -/
theorem brackets_join_cons (ts : List Token) (tss : List (List Token)) :
    brackets (join (ts :: tss)) = brackets ts + brackets (join tss) := by
  cases tss with
  | nil => rfl
  | cons us tss => simp [join]

theorem brackets_unary (op : UnaryOp) (ts : List Token) :
    brackets (Expr.unaryTokens op ts) = brackets ts := by
  cases op <;> simp [Expr.unaryTokens, enclose, UnaryOp.kind]

theorem brackets_binary (op : BinaryOp) (ts us : List Token) :
    brackets (ts ++ symbol op.kind :: us) = brackets ts + brackets us := by
  have hop : op.kind ≠ .openBracket := by cases op <;> decide
  simp [hop]

theorem brackets_entries (key : String) (e : Expr) (m : List (String × Expr)) :
    brackets (join (Expr.entriesTokens ((key, e) :: m))) =
      brackets e.tokens + brackets (join (Expr.entriesTokens m)) := by
  simp [Expr.entriesTokens, brackets_join_cons]

/-- An entry that is put in adds its own brackets at most. -/
theorem brackets_insertEntry (key : String) (e : Expr) : ∀ m : List (String × Expr),
    brackets (join (Expr.entriesTokens (Expr.insertEntry key e m))) ≤
      brackets e.tokens + brackets (join (Expr.entriesTokens m)) := by
  intro m
  induction m with
  | nil => exact Nat.le_of_eq (brackets_entries key e [])
  | cons kv m ih =>
    obtain ⟨k, v⟩ := kv
    rw [Expr.insertEntry]
    split
    · rw [brackets_entries]
    · split <;> rw [brackets_entries, brackets_entries] <;> omega

end Token

namespace Grammar

open Token (brackets)

/-- At most as many, and this holds if it is as many. -/
def NoMore (m n : Nat) (P : Prop) : Prop := m ≤ n ∧ (m = n → P)

namespace NoMore

variable {a b c d m n : Nat} {P Q : Prop}

theorem of_eq (h : m = n) (hP : P) : NoMore m n P := ⟨Nat.le_of_eq h, fun _ => hP⟩

theorem of_le (h : m ≤ n) : NoMore m n True := ⟨h, fun _ => trivial⟩

theorem of_lt (h : m < n) : NoMore m n P := ⟨Nat.le_of_lt h, fun hmn => absurd hmn (Nat.ne_of_lt h)⟩

theorem imp (h : NoMore m n P) (hPQ : P → Q) : NoMore m n Q := ⟨h.1, fun hmn => hPQ (h.2 hmn)⟩

/-- As much is dropped as in a part. -/
theorem of_part (h : NoMore a b P) (hsum : m + b = n + a) : NoMore m n P := by
  obtain ⟨hle, hP⟩ := h
  refine ⟨?_, fun hmn => hP ?_⟩ <;> omega

/-- As much is dropped as in two parts. -/
theorem of_parts (h : NoMore a b P) (h' : NoMore c d Q) (hsum : m + b + d = n + a + c) :
    NoMore m n (P ∧ Q) := by
  obtain ⟨hle, hP⟩ := h
  obtain ⟨hle', hQ⟩ := h'
  refine ⟨?_, fun hmn => ⟨hP ?_, hQ ?_⟩⟩ <;> omega

end NoMore

variable {limit : Option Nat} {b : Nat} {ts : List Token} {k : Kind}

/-! ## Indices -/

/-- No index is a range up to a switch. -/
theorem Derives.not_rangeTo_item {x e : Expr}
    (h : Derives .longest limit b (.item (.index x) e) ts k) : ¬ e.RangeTo Expr.OpensSwitch := by
  cases h with
  | bare he => exact fun hopen => he.outline.2 hopen.isRange
  | boundedIndex _ _ hk hh =>
    intro hopen
    rw [← hh.outline.1 .endOfInput, show ahead _ .endOfInput = _ from hopen] at hk
    exact absurd hk (show ¬ Kind.openSwitch ∈ TokenSet.simpleTerm by decide)
  | leftBounded | rightBounded => exact id

theorem Derives.not_rangeTo_items {x : Expr} {es : List Expr}
    (h : Derives .longest limit b (.items (.index x) es) ts k) :
    ∀ e ∈ es, ¬ e.RangeTo Expr.OpensSwitch := by
  induction es generalizing ts k with
  | nil => cases h
  | cons e es ih =>
    cases h with
    | lastItem hi => exact List.forall_mem_singleton.mpr hi.not_rangeTo_item
    | moreItems hi _ hs => exact List.forall_mem_cons.mpr ⟨hi.not_rangeTo_item, ih hs⟩

theorem Derives.not_rangeTo {x : Expr} {es : List Expr}
    (h : Derives .longest limit b (.listing (.index x) es) ts k) :
    ∀ e ∈ es, ¬ e.RangeTo Expr.OpensSwitch := by
  cases h with
  | noItems => exact nofun
  | someItems _ hi => exact hi.not_rangeTo_items

/-- **The brackets of an array are the only ones that are dropped**, and only if its elements become
    the indices. -/
theorem noMore_indexTokens {es : List Expr} (x : Expr) (loc loc' : Location)
    (h : ∀ e ∈ es, ¬ e.RangeTo Expr.OpensSwitch) :
    NoMore (brackets (Expr.collect es loc).indexTokens) (brackets (Token.join (Expr.listTokens es)))
      ¬ (Expr.subscript x (.collect es loc) loc').ListsRangeTo Expr.OpensSwitch := by
  match es with
  | [] => exact .of_eq rfl fun hlists => absurd hlists.1 (by simp)
  | i :: j :: r => exact .of_eq rfl fun ⟨_, e, he, hopen⟩ => h e he hopen
  | [.array [] l] => exact .of_lt Nat.zero_lt_one
  | [.array [y] l] => exact .of_eq rfl fun hlists => absurd hlists.1 (by simp)
  | [.array (y :: z :: r) l] =>
    have htokens : Token.join (Expr.listTokens [.array (y :: z :: r) l]) = Token.enclose .openBracket
      (Expr.collect [.array (y :: z :: r) l] loc).indexTokens .closeBracket := rfl
    refine .of_lt ?_
    simp [htokens, Token.enclose]
  | [.literal ..] | [.var ..] | [.unary ..] | [.binary ..] | [.map ..] | [.switch ..]
  | [.subscript ..] => exact .of_eq rfl id

/-! ## Derivations -/

/-- No node of the tree lists a range up to a switch. -/
abbrev AllKept (e : Expr) : Prop := e.All fun n => ¬ n.ListsRangeTo Expr.OpensSwitch

/-- A phrase is printed with no more brackets, and if with as many, it lists no range up to a switch. -/
def Phrase.NoMore (p : Phrase) (ts : List Token) : Prop :=
  match p with
  | .expression e | .term e | .operand e | .simple e | .item _ e =>
    Grammar.NoMore (brackets e.tokens) (brackets ts) (AllKept e)
  | .tail e e' | .subscripts e e' =>
    Grammar.NoMore (brackets e'.tokens) (brackets e.tokens + brackets ts) (AllKept e → AllKept e')
  | .listing _ es | .items _ es =>
    Grammar.NoMore (brackets (Token.join (Expr.listTokens es))) (brackets ts) (∀ e ∈ es, AllKept e)
  | .entries m m' =>
    Grammar.NoMore (brackets (Token.join (Expr.entriesTokens m')))
      (brackets (Token.join (Expr.entriesTokens m)) + brackets ts)
      ((∀ kv ∈ m, AllKept kv.2) → ∀ kv ∈ m', AllKept kv.2)

/-- **Brackets are never added**, and if none is dropped, then no range up to a switch is listed. -/
theorem Derives.noMore {p : Phrase} (h : Derives .longest limit b p ts k) : p.NoMore ts := by
  induction h with
  | @grouped b o c ts us k e e' ho hc _ _ iht ihu | @parens b o c ts us k e e' ho hc _ _ _ iht ihu =>
    have hgroup : brackets (Expr.unary .group e o.location).tokens = brackets e.tokens :=
      Token.brackets_unary .group _
    refine (iht.of_parts ihu ?_).imp fun h => h.2 (Expr.all_unary.mpr ⟨id, h.1⟩)
    simp [hgroup, ho, hc]
    omega
  | ungrouped _ _ ih | bare _ ih => exact ih
  | chain _ _ iho ihu | subscripted _ _ _ _ iho ihu =>
    refine (iho.of_parts ihu ?_).imp fun h => h.2 h.1
    simp
    omega
  | tailEnd | subscriptsEnd => exact .of_eq (by simp) id
  | @tailMore b t ts us k op e r e' ht _ _ ihr ihu =>
    have hbinary : brackets (Expr.binary op e r t.location).tokens =
        brackets e.tokens + brackets r.tokens := Token.brackets_binary op _ _
    have hkind : t.kind ≠ .openBracket := ne_openBracket_of_ofKind? ht
    refine (ihr.of_parts ihu ?_).imp fun h he => h.2 (Expr.all_binary.mpr ⟨id, he, h.1⟩)
    simp [hbinary, hkind]
    omega
  | @switch b o ts k es _ ho _ ih =>
    refine (ih.of_part ?_).imp fun hes => Expr.all_switch.mpr ⟨id, hes⟩
    simp [Expr.tokens, Token.enclose, ho]
    omega
  | @array b o ts k es ho _ ih =>
    refine (ih.of_part ?_).imp fun hes => Expr.all_array.mpr ⟨id, hes⟩
    simp [Expr.tokens, Token.enclose, ho]
    omega
  | @atom b t k e ht =>
    obtain ⟨u, htokens, hkind, -⟩ := Token.atom?_reprint ht
    have hall : AllKept e := by
      rcases Token.eq_of_atom? ht with ⟨v, loc, rfl⟩ | ⟨x, loc, rfl⟩
      · exact Expr.all_literal.mpr id
      · exact Expr.all_var.mpr id
    exact .of_eq (by simp [htokens, hkind]) hall
  | @sign b t ts k op e ht _ ih =>
    have hunary : brackets (Expr.unary op e t.location).tokens = brackets e.tokens :=
      Token.brackets_unary op _
    have hkind : t.kind ≠ .openBracket := by
      intro hk
      rw [hk] at ht
      cases ht
    refine (ih.of_part ?_).imp fun he => Expr.all_unary.mpr ⟨id, he⟩
    simp [hunary, hkind]
    omega
  | emptyMap ho hc =>
    exact .of_eq (by simp [Expr.tokens, Expr.entriesTokens, Token.join, Token.enclose, ho, hc])
      (Expr.all_map.mpr ⟨id, List.forall_mem_nil _⟩)
  | @map b o ts k m ho _ ih =>
    refine (ih.of_part ?_).imp fun hm => Expr.all_map.mpr ⟨id, hm (List.forall_mem_nil _)⟩
    simp [Expr.tokens, Expr.entriesTokens, Token.join, Token.enclose, ho]
    omega
  | @subscriptsMore b o ts us k e e' es ho hs _ ihs ihu =>
    have hsubscript : brackets (Expr.subscript e (.collect es o.location) o.location).tokens =
        brackets e.tokens + brackets (Expr.collect es o.location).indexTokens + 1 := by
      simp [Expr.tokens_subscript, Token.enclose]
      omega
    have hindex := noMore_indexTokens e o.location o.location hs.not_rangeTo
    have hlist : NoMore (brackets (Expr.collect es o.location).indexTokens) (brackets ts) _ :=
      ihs.of_parts hindex (by omega)
    refine (hlist.of_parts ihu ?_).imp fun h he =>
      h.2 (Expr.all_subscript.mpr ⟨h.1.2, he, all_collect id h.1.1⟩)
    simp [hsubscript, ho]
    omega
  | @noItems b s c k hc =>
    refine .of_eq ?_ (List.forall_mem_nil _)
    rcases s.closer_eq with h | h <;> simp [Expr.listTokens, Token.join, hc, h]
  | someItems _ _ ih => exact ih
  | @lastItem b s ts c k e _ hc ih =>
    refine (ih.of_part ?_).imp List.forall_mem_singleton.mpr
    rcases s.closer_eq with h | h <;> simp [Expr.listTokens, Token.join, hc, h] <;> omega
  | @moreItems b s ts us c k e es _ hc _ ihi ihs =>
    refine (ihi.of_parts ihs ?_).imp List.forall_mem_cons.mpr
    simp [Expr.listTokens, Token.brackets_join_cons, hc]
    omega
  | @bounded b ts us t k lo hi _ ht _ ihl ihh | @boundedIndex b ts us t k x lo hi _ ht _ _ ihl ihh =>
    have hbinary : brackets (Expr.binary .boundedRange lo hi t.location).tokens =
        brackets lo.tokens + brackets hi.tokens := Token.brackets_binary .boundedRange _ _
    refine (ihl.of_parts ihh ?_).imp fun h => Expr.all_binary.mpr ⟨id, h.1, h.2⟩
    simp [hbinary, ht]
    omega
  | @leftBounded b ts t k x lo _ ht ih | @rightBounded b ts t k x lo ht _ ih =>
    have hunary : ∀ op, brackets (Expr.unary op lo t.location).tokens = brackets lo.tokens :=
      fun op => Token.brackets_unary op _
    refine (ih.of_part ?_).imp fun he => Expr.all_unary.mpr ⟨id, he⟩
    simp [hunary, ht]
    omega
  | @lastEntry b t n c ts k key e m ht hn _ hc ih =>
    have hinsert := NoMore.of_le (Token.brackets_insertEntry key e m)
    refine (ih.of_parts hinsert ?_).imp fun h hm => all_insertEntry h.1 hm
    rcases kind_of_key? ht with h | h <;> simp [h, hn, hc] <;> omega
  | @moreEntries b t n c ts us k key e m m' ht hn _ hc _ ihe ihm =>
    have hinsert := NoMore.of_le (Token.brackets_insertEntry key e m)
    have hput : NoMore (brackets (Token.join (Expr.entriesTokens (Expr.insertEntry key e m))))
        (brackets ts + brackets (Token.join (Expr.entriesTokens m))) _ :=
      ihe.of_parts hinsert (by omega)
    refine (hput.of_parts ihm ?_).imp fun h hm => h.2 (all_insertEntry h.1.1 hm)
    rcases kind_of_key? ht with h | h <;> simp [h, hn, hc] <;> omega

/-- **A tree that is read from its own tokens lists no range up to a switch.** -/
theorem Derives.kept {e : Expr} (h : Derives .longest limit b (.expression e) e.tokens k) :
    AllKept e := h.noMore.2 rfl

end Grammar

end EL
