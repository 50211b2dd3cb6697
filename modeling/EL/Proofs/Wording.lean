import EL.Error
import EL.Token.Word

/-!
# What a message says of a set

A set of kinds is worded as its members, in one order, with commas, `or`, or both between them. The
names of some kinds hold commas and quotes themselves. Still,

> **the wording of a set says which kinds are in it** (`TokenSet.describe_injective`),

because a name shows where it ends: no name begins with another one (`Kind.describe_append_inj`). So
the names are found one by one from the front, and what may stand between or behind them is told from
a name by its first two letters. That also finds the end of the wording in a message, where more text
follows.

An `Assembly` is a way to put a set together. In whatever way that is done, the word of bits that it
comes to holds what was put in (`assembly_described`).
-/

set_option autoImplicit false

namespace EL

/-! ## Names -/

namespace Kind

/-- The name of a kind, letter by letter. -/
def letters (k : Kind) : List Char := k.describe.toList

/-- No name begins with another one, so that it shows where a name ends. -/
theorem letters_append_inj {k l : Kind} {x y : List Char} (h : k.letters ++ x = l.letters ++ y) :
    k = l ∧ x = y := by
  have hunique : ∀ k ∈ all, ∀ l ∈ all, k.letters <+: l.letters → k = l := by decide
  have heq : k = l := by
    rcases List.prefix_or_prefix_of_prefix (List.prefix_append k.letters x)
      (h ▸ List.prefix_append l.letters y) with hp | hp
    · exact hunique k k.mem_all l l.mem_all hp
    · exact (hunique l l.mem_all k k.mem_all hp).symm
  subst heq
  exact ⟨rfl, List.append_cancel_left h⟩

/-- How no name begins: as the words around the names in a message do. -/
theorem letters_append_ne (k : Kind) (x y : List Char) :
    k.letters ++ x ≠ 'o' :: 'r' :: y ∧ k.letters ++ x ≠ 'b' :: 'u' :: y ∧
      k.letters ++ x ≠ 'u' :: y := by
  obtain ⟨a, b, r, hk, hor, hbut, hunknown⟩ : ∃ a b r, k.letters = a :: b :: r ∧
      ¬ (a = 'o' ∧ b = 'r') ∧ ¬ (a = 'b' ∧ b = 'u') ∧ a ≠ 'u' := by
    cases k <;> exact ⟨_, _, _, rfl, by decide, by decide, by decide⟩
  rw [hk]
  refine ⟨fun h => hor ?_, fun h => hbut ?_, fun h => hunknown ?_⟩ <;> simp_all

end Kind

/-! ## Lists of names -/

/-- A set as it is worded in a message, where more text follows it. -/
def expectedBut (x : List Char) : List Char := ',' :: ' ' :: 'b' :: 'u' :: x

namespace Kind

/-- What stands behind a name and a comma, if these kinds are still to be named. -/
def afterComma (x : List Char) : List Kind → List Char
  | [] => 'b' :: 'u' :: x
  | [k] => 'o' :: 'r' :: ' ' :: (k.letters ++ expectedBut x)
  | k :: l :: ks => k.letters ++ ',' :: ' ' :: afterComma x (l :: ks)

/-- What stands behind the first name, if these kinds are still to be named. Two names have no comma
    between them. -/
def afterFirst (x : List Char) : List Kind → List Char
  | [] => expectedBut x
  | [k] => ' ' :: 'o' :: 'r' :: ' ' :: (k.letters ++ expectedBut x)
  | k :: l :: ks => ',' :: ' ' :: (k.letters ++ ',' :: ' ' :: afterComma x (l :: ks))

theorem toList_joined (x : List Char) (k : Kind) (ks : List Kind) (h : ks.map describe ≠ []) :
    (Text.joinWith ", " (k.describe :: (ks.map describe).dropLast) ++ ", or " ++
      (ks.map describe).getLast h).toList ++ expectedBut x =
      k.letters ++ ',' :: ' ' :: afterComma x ks := by
  induction ks generalizing k with
  | nil => exact absurd rfl h
  | cons l ks ih =>
    cases ks with
    | nil => simp [afterComma, letters]
    | cons m ks =>
      have hrest := ih l (List.cons_ne_nil _ _)
      simp only [List.map_cons, List.dropLast_cons_cons, Text.joinWith_cons_cons,
        List.getLast_cons_cons, String.toList_append, List.append_assoc] at hrest ⊢
      rw [hrest]
      rfl

theorem afterComma_inj {x y : List Char} {ks ls : List Kind}
    (h : afterComma x ks = afterComma y ls) : ks = ls := by
  -- What comes next is a name, or one of the words that no name begins as.
  induction ks generalizing ls with
  | nil =>
    rcases ls with _ | ⟨l, _ | ⟨m, ls⟩⟩
    · rfl
    · cases h
    · exact absurd h.symm (l.letters_append_ne _ _).2.1
  | cons k ks ih =>
    rcases ks with _ | ⟨k', ks⟩ <;> rcases ls with _ | ⟨l, _ | ⟨m, ls⟩⟩
    · cases h
    · simp only [afterComma, List.cons.injEq, true_and] at h
      rw [(letters_append_inj h).1]
    · exact absurd h.symm (l.letters_append_ne _ _).1
    · exact absurd h (k.letters_append_ne _ _).2.1
    · exact absurd h (k.letters_append_ne _ _).1
    · obtain ⟨rfl, hrest⟩ := letters_append_inj h
      simp only [List.cons.injEq, true_and] at hrest
      rw [ih hrest]

theorem afterFirst_inj {x y : List Char} {ks ls : List Kind}
    (h : afterFirst x ks = afterFirst y ls) : ks = ls := by
  rcases ks with _ | ⟨k, _ | ⟨k', ks⟩⟩ <;> rcases ls with _ | ⟨l, _ | ⟨l', ls⟩⟩
  · rfl
  · cases h
  · simp only [afterFirst, expectedBut, List.cons.injEq, true_and] at h
    exact absurd h.symm (l.letters_append_ne _ _).2.1
  · cases h
  · simp only [afterFirst, List.cons.injEq, true_and] at h
    rw [(letters_append_inj h).1]
  · cases h
  · simp only [afterFirst, expectedBut, List.cons.injEq, true_and] at h
    exact absurd h (k.letters_append_ne _ _).2.1
  · cases h
  · simp only [afterFirst, List.cons.injEq, true_and] at h
    obtain ⟨rfl, hrest⟩ := letters_append_inj h
    simp only [List.cons.injEq, true_and] at hrest
    rw [afterComma_inj hrest]

end Kind

namespace TokenSet

theorem toList_describe_append (s : TokenSet) (x : List Char) :
    s.describe.toList ++ expectedBut x = match s.kinds with
      | [] => "unknown token type".toList ++ expectedBut x
      | k :: ks => k.letters ++ Kind.afterFirst x ks := by
  rw [describe]
  rcases s.kinds with _ | ⟨k, _ | ⟨l, _ | ⟨m, ks⟩⟩⟩
  · rfl
  · rfl
  · simp [alternatives, Kind.afterFirst, Kind.letters]
  · have h := Kind.toList_joined x l (m :: ks) (List.cons_ne_nil _ _)
    simp only [List.map_cons, alternatives, Text.joinWith_cons_cons, String.toList_append,
      List.append_assoc] at h ⊢
    rw [h]
    rfl

/-- Sets with the same members are one set. -/
theorem ext_mem {s t : TokenSet} (h : ∀ k, k ∈ s ↔ k ∈ t) : s = t := by
  ext k
  exact Bool.eq_iff_iff.mpr (h k)

/-- **The wording of a set says which set it is**, and also where it ends. -/
theorem describe_append_inj {s t : TokenSet} {x y : List Char}
    (h : s.describe.toList ++ expectedBut x = t.describe.toList ++ expectedBut y) : s = t := by
  rw [toList_describe_append, toList_describe_append] at h
  suffices hkinds : s.kinds = t.kinds by
    apply ext_mem
    intro k
    rw [← mem_kinds, hkinds, mem_kinds]
  cases hs : s.kinds with
  | nil =>
    cases ht : t.kinds with
    | nil => rfl
    | cons l ls =>
      rw [hs, ht] at h
      exact absurd h.symm (l.letters_append_ne _ _).2.2
  | cons k ks =>
    cases ht : t.kinds with
    | nil =>
      rw [hs, ht] at h
      exact absurd h (k.letters_append_ne _ _).2.2
    | cons l ls =>
      rw [hs, ht] at h
      obtain ⟨rfl, hrest⟩ := Kind.letters_append_inj h
      rw [Kind.afterFirst_inj hrest]

theorem describe_injective {s t : TokenSet} (h : s.describe = t.describe) : s = t :=
  describe_append_inj (x := []) (y := []) (by rw [h])

end TokenSet

/-- **A message says what was expected**, whatever was found instead. -/
theorem Cause.set_of_message {s s' : TokenSet} {t t' : Token}
    (h : (expected s t).message = (expected s' t').message) : s = s' := by
  have hmessage : ∀ (s : TokenSet) (t : Token), (expected s t).message.toList =
      "Expected ".toList ++ (s.describe.toList ++ expectedBut
        ("t got ".toList ++ (t.kind.letters ++ (" (raw data: '".toList ++
          (t.text.toList ++ "')".toList))))) := by
    intro s t
    have hwording : (expected s t).message = "Expected " ++ s.describe ++ ", but got " ++
        t.kind.describe ++ " (raw data: '" ++ t.text ++ "')" := rfl
    rw [hwording]
    simp [expectedBut, Kind.letters]
  have hletters := congrArg String.toList h
  rw [hmessage, hmessage] at hletters
  exact TokenSet.describe_append_inj (List.append_cancel_left hletters)

/-! ## Putting sets together -/

/-- A way to put a set of kinds together. -/
inductive Assembly where
  /-- From a list. -/
  | list (ks : List Kind)
  /-- From one kind. -/
  | single (k : Kind)
  /-- From two sets. -/
  | union (a b : Assembly)
  /-- From a set and one kind more. -/
  | add (a : Assembly) (k : Kind)
  /-- From two kinds. -/
  | pair (k l : Kind)

namespace Assembly

/-- The kinds that are put in, in the order and as often as they are. -/
def listed : Assembly → List Kind
  | list ks => ks
  | single k => [k]
  | union a b => a.listed ++ b.listed
  | add a k => a.listed ++ [k]
  | pair k l => [k, l]

/-- The word of bits that comes of it. -/
def word : Assembly → KindWord
  | list ks => .ofList ks
  | single k => .single k
  | union a b => a.word.union b.word
  | add a k => a.word.union (.single k)
  | pair k l => (KindWord.single k).union (.single l)

/-- The set that comes of it. -/
def set : Assembly → TokenSet
  | list ks => .ofList ks
  | single k => {k}
  | union a b => a.set ∪ b.set
  | add a k => a.set ∪ {k}
  | pair k l => {k, l}

theorem contains_word (a : Assembly) (k : Kind) : a.word.contains k = true ↔ k ∈ a.listed := by
  induction a with
  | list ks => simp [word, listed]
  | single l => simp [word, listed]
  | union a b iha ihb => simp [word, listed, iha, ihb]
  | add a l ih => simp [word, listed, ih]
  | pair l m => simp [word, listed]

theorem mem_set (a : Assembly) (k : Kind) : k ∈ a.set ↔ k ∈ a.listed := by
  induction a with
  | list ks => exact TokenSet.mem_ofList
  | single l => simp [set, listed]
  | union a b iha ihb => simp [set, listed, iha, ihb]
  | add a l ih => simp [set, listed, ih]
  | pair l m => simp [set, listed]

/-- Packed or not, the same set comes of it. -/
theorem set_word (a : Assembly) : a.word.set = a.set := by
  apply TokenSet.ext_mem
  intro k
  rw [KindWord.mem_set, contains_word, mem_set]

end Assembly

/-- **However a set is put together, it holds what was put in, and its wording says so.** The members
    of the word of bits are the kinds that were put in, and they are listed in the order of all kinds,
    each once. Two sets are worded alike just if the same kinds were put in, and so a message that
    says what was expected determines it. -/
theorem assembly_described (a b : Assembly) :
    (∀ k, a.word.contains k = true ↔ k ∈ a.listed) ∧
      (∀ k, k ∈ a.word.kinds ↔ k ∈ a.listed) ∧
      (a.word.kinds.Pairwise fun k l => k.rank < l.rank) ∧
      (a.word.describe = b.word.describe ↔ ∀ k, k ∈ a.listed ↔ k ∈ b.listed) ∧
      a.word.set = a.set ∧ a.word.describe = a.set.describe ∧
      ∀ t u, (Cause.expected a.set t).message = (Cause.expected b.set u).message →
        ∀ k, k ∈ a.listed ↔ k ∈ b.listed := by
  have hset : a.set = b.set ↔ ∀ k, k ∈ a.listed ↔ k ∈ b.listed := by
    constructor
    · intro h k
      rw [← a.mem_set, h, b.mem_set]
    · intro h
      apply TokenSet.ext_mem
      intro k
      rw [a.mem_set, h, b.mem_set]
  refine ⟨a.contains_word, ?_, ?_, ?_, a.set_word, ?_, ?_⟩
  · intro k
    rw [KindWord.kinds_eq, TokenSet.mem_kinds]
    exact a.contains_word k
  · exact Kind.pairwise_all.sublist List.filter_sublist
  · rw [KindWord.describe_eq, KindWord.describe_eq, a.set_word, b.set_word, ← hset]
    exact ⟨TokenSet.describe_injective, fun h => by rw [h]⟩
  · rw [KindWord.describe_eq, a.set_word]
  · intro t u h
    exact hset.mp (Cause.set_of_message h)

/-- Two signs, put together in two ways: a message does not say in which order, or how often. -/
theorem assembly_described_signs :
    ∃ t : Token, (Cause.expected (Assembly.pair .plus .minus).set t).message =
      (Cause.expected (Assembly.list [.minus, .plus, .minus]).set t).message ∧
    ∀ k, k ∈ (Assembly.pair .plus .minus).listed ↔
      k ∈ (Assembly.list [.minus, .plus, .minus]).listed := by
  have hset : (Assembly.pair .plus .minus).set = (Assembly.list [.minus, .plus, .minus]).set := by
    apply TokenSet.ext_mem
    intro k
    cases k <;> decide
  have hmessage := congrArg
    (fun set => (Cause.expected set ⟨.comma, ",", .start .origin⟩).message) hset
  obtain ⟨-, -, -, -, -, -, hlisted⟩ :=
    assembly_described (.pair .plus .minus) (.list [.minus, .plus, .minus])
  exact ⟨_, hmessage, hlisted _ _ hmessage⟩

end EL
