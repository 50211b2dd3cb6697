import EL.Token.Set

/-!
# Sets of kinds in a machine word

There are fewer kinds than a word has bits, so a set of them fits into one word: every kind has a bit,
by its place among all kinds, and the bit says whether the kind is a member. Sets are put together by
`or` and asked by `and`. `KindWord.set` is the set that a word stands for, and that is all that a word
has to say (`KindWord.contains_eq`); the bits that no kind has are not looked at.
-/

set_option autoImplicit false

namespace EL

namespace Kind

/-- The place of a kind among all kinds, in the order of messages. -/
def rank (k : Kind) : Nat := k.ctorIdx

theorem getElem?_rank (k : Kind) : all[k.rank]? = some k := by
  cases k <;> rfl

theorem rank_lt (k : Kind) : k.rank < 64 := by
  have hlt : k.rank < all.length := (List.getElem?_eq_some_iff.1 k.getElem?_rank).1
  exact Nat.lt_trans hlt (by decide)

theorem rank_injective {k l : Kind} (h : k.rank = l.rank) : k = l := by
  have hl := l.getElem?_rank
  rw [← h, k.getElem?_rank] at hl
  exact Option.some.inj hl

/-- The list of all kinds is in order. -/
theorem pairwise_all : all.Pairwise fun k l => k.rank < l.rank := by decide

/-- The bit of a kind. -/
def bit (k : Kind) : UInt64 := 1 <<< UInt64.ofNat k.rank

theorem toBitVec_bit (k : Kind) : k.bit.toBitVec = BitVec.twoPow 64 k.rank := by
  cases k <;> rfl

end Kind

/-- A set of kinds, packed into a word. -/
structure KindWord where
  /-- One bit for each kind. -/
  bits : UInt64

namespace KindWord

/-- The set of one kind. -/
def single (k : Kind) : KindWord := ⟨k.bit⟩

/-- The set of the kinds in a list, put in one by one. -/
def ofList (ks : List Kind) : KindWord := ⟨ks.foldl (fun bits k => bits ||| k.bit) 0⟩

/-- The members of both sets. -/
def union (v w : KindWord) : KindWord := ⟨v.bits ||| w.bits⟩

/-- Is this kind in the set? -/
def contains (w : KindWord) (k : Kind) : Bool := w.bits &&& k.bit != 0

/-- The members, in the order of messages. -/
def kinds (w : KindWord) : List Kind := Kind.all.filter w.contains

/-- The members in words. -/
def describe (w : KindWord) : String := TokenSet.alternatives (w.kinds.map Kind.describe)

/-- The set that a word stands for. -/
def set (w : KindWord) : TokenSet := ⟨w.contains⟩

/-- A kind is a member just if its bit is set. -/
theorem contains_eq (w : KindWord) (k : Kind) : w.contains k = w.bits.toBitVec.getLsbD k.rank := by
  have hzero : w.bits &&& k.bit = 0 ↔ w.bits.toBitVec.getLsbD k.rank = false := by
    rw [← UInt64.toBitVec_inj, UInt64.toBitVec_and, Kind.toBitVec_bit, BitVec.and_twoPow]
    cases hbit : w.bits.toBitVec.getLsbD k.rank with
    | false => simp
    | true =>
      have hne : BitVec.twoPow 64 k.rank ≠ 0#64 := by
        intro h
        have hself := BitVec.getLsbD_twoPow (w := 64) k.rank k.rank
        simp [h, k.rank_lt] at hself
      simpa using hne
  cases hbit : w.bits.toBitVec.getLsbD k.rank with
  | false => simpa [contains] using hzero.2 hbit
  | true => simpa [contains, hbit] using hzero

@[simp] theorem contains_single (k l : Kind) : (single k).contains l = (l == k) := by
  rw [contains_eq, single, Kind.toBitVec_bit, BitVec.getLsbD_twoPow]
  by_cases h : l = k
  · simp [h, k.rank_lt]
  · have hrank : k.rank ≠ l.rank := fun hrank => h (Kind.rank_injective hrank).symm
    simp [h, hrank]

@[simp] theorem contains_union (v w : KindWord) (k : Kind) :
    (v.union w).contains k = (v.contains k || w.contains k) := by
  simp [contains_eq, union, UInt64.toBitVec_or]

/-- A word that kinds are put into has these members besides those that it had. -/
theorem contains_foldl (ks : List Kind) (bits : UInt64) (k : Kind) :
    contains ⟨ks.foldl (fun bits l => bits ||| l.bit) bits⟩ k =
      (contains ⟨bits⟩ k || ks.contains k) := by
  induction ks generalizing bits with
  | nil => simp
  | cons l ks ih =>
    have hput : contains ⟨bits ||| l.bit⟩ k = (contains ⟨bits⟩ k || k == l) := by
      rw [← contains_single]
      exact contains_union ⟨bits⟩ (single l) k
    rw [List.foldl_cons, ih, hput, List.contains_cons, Bool.or_assoc]

@[simp] theorem contains_ofList (ks : List Kind) (k : Kind) :
    (ofList ks).contains k = ks.contains k := by
  rw [ofList, contains_foldl]
  simp [contains]

/-! ## The sets that words stand for -/

theorem mem_set {w : KindWord} {k : Kind} : k ∈ w.set ↔ w.contains k = true := Iff.rfl

@[simp] theorem set_single (k : Kind) : (single k).set = {k} :=
  TokenSet.ext (funext (contains_single k))

@[simp] theorem set_union (v w : KindWord) : (v.union w).set = v.set ∪ w.set :=
  TokenSet.ext (funext (contains_union v w))

@[simp] theorem set_ofList (ks : List Kind) : (ofList ks).set = TokenSet.ofList ks :=
  TokenSet.ext (funext (contains_ofList ks))

theorem kinds_eq (w : KindWord) : w.kinds = w.set.kinds := rfl

theorem describe_eq (w : KindWord) : w.describe = w.set.describe := rfl

end KindWord

end EL
