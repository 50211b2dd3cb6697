import EL.Proofs.Grammar.NodeLaws
import EL.Proofs.Lenient

/-!
# How far a limited tree nests

A limit on the depth counts operands, and a tree has more levels than that: brackets, ranges, index
lists and right operands are levels too, with no operand of their own. On the other hand a chain of
operators and a row of subscripts are read in a loop, and make a tree that is as deep on its left as
they are long. Who walks over a tree can walk over its left in a loop as well, so **a step to the left
counts nothing, and each other step down counts one** (`Expr.Path`).

An operand that may still begin `r` operands, itself included, allows five steps for each of them, less
a few for what is around it: `5 * r - 4` in the operand, one more in a term, and two more in an
expression, which may have parentheses of its own. That is what the rules of the grammar keep
(`Derives.nestsWithin`), and the best that can be said: `(x + y[])` takes three steps with a limit of
one.
-/

set_option autoImplicit false

namespace EL

namespace Expr

/-- The trees directly below a node, each with what the step to it counts. -/
def edges : Expr → List (Nat × Expr)
  | literal _ _ | var _ _ => []
  | unary _ operand _ => [(1, operand)]
  | binary _ left right _ => [(0, left), (1, right)]
  | array items _ | switch items _ => items.map fun e => (1, e)
  | map entries _ => entries.map fun kv => (1, kv.2)
  | subscript target index _ => [(0, target), (1, index)]

theorem map_edges (e : Expr) : e.edges.map (·.2) = e.children := by
  cases e <;> simp [edges, children]

/-- `e.Path k x`: the node `x` is below `e`, or `e` itself, and the steps from `e` down to it count
    `k`. -/
inductive Path : Expr → Nat → Expr → Prop where
  | here (e : Expr) : Path e 0 e
  | down {e c x : Expr} {j k : Nat} (hc : (j, c) ∈ e.edges) (hp : Path c k x) : Path e (j + k) x

/-- Every node of a tree is at the end of a way down. -/
theorem all_exists_path (e : Expr) : e.All fun x => ∃ k, e.Path k x := by
  refine all_iff.mpr ⟨⟨0, .here e⟩, fun c hc => ?_⟩
  have := sizeOf_lt_of_mem_children hc
  refine (all_exists_path c).imp fun x hx => ?_
  obtain ⟨k, hp⟩ := hx
  rw [← map_edges] at hc
  obtain ⟨⟨j, c⟩, hjc, rfl⟩ := List.mem_map.mp hc
  exact ⟨j + k, .down hjc hp⟩
termination_by sizeOf e

/-- No way down counts more than `m`. -/
def NestsIn (m : Nat) (e : Expr) : Prop := ∀ k x, e.Path k x → k ≤ m

section
variable {e a b : Expr} {es : List Expr} {m n : Nat} {loc : Location}

theorem NestsIn.mono (h : e.NestsIn m) (hmn : m ≤ n) : e.NestsIn n :=
  fun k x hp => Nat.le_trans (h k x hp) hmn

/-- **A way down is a step and a way down from there.** -/
theorem nestsIn_iff : e.NestsIn m ↔ ∀ jc ∈ e.edges, jc.1 ≤ m ∧ jc.2.NestsIn (m - jc.1) := by
  constructor
  · rintro h ⟨j, c⟩ hc
    refine ⟨h j c (.down hc (.here c)), fun k x hp => ?_⟩
    have := h (j + k) x (.down hc hp)
    show k ≤ m - j
    omega
  · intro h k x hp
    cases hp with
    | here => exact Nat.zero_le m
    | @down _ c _ j k hc hp =>
      obtain ⟨hj, hrest⟩ := h (j, c) hc
      have hj : j ≤ m := hj
      have hk : k ≤ m - j := hrest k x hp
      omega

theorem nestsIn_of_edges_nil (h : e.edges = []) : e.NestsIn m :=
  nestsIn_iff.mpr fun jc hjc => by simp [h] at hjc

theorem NestsIn.unary {op : UnaryOp} (h : e.NestsIn m) : (Expr.unary op e loc).NestsIn (m + 1) :=
  nestsIn_iff.mpr (by simpa [edges] using h)

theorem NestsIn.binary {op : BinaryOp} (ha : a.NestsIn (m + 1)) (hb : b.NestsIn m) :
    (Expr.binary op a b loc).NestsIn (m + 1) :=
  nestsIn_iff.mpr (by simpa [edges] using ⟨ha, hb⟩)

theorem NestsIn.subscript (ha : a.NestsIn (m + 1)) (hb : b.NestsIn m) :
    (Expr.subscript a b loc).NestsIn (m + 1) :=
  nestsIn_iff.mpr (by simpa [edges] using ⟨ha, hb⟩)

theorem NestsIn.array (h : ∀ e ∈ es, e.NestsIn m) : (Expr.array es loc).NestsIn (m + 1) :=
  nestsIn_iff.mpr (by simpa [edges] using h)

theorem NestsIn.switch (h : ∀ e ∈ es, e.NestsIn m) : (Expr.switch es loc).NestsIn (m + 1) :=
  nestsIn_iff.mpr (by simpa [edges] using h)

theorem NestsIn.map {kvs : List (String × Expr)} (h : ∀ kv ∈ kvs, kv.2.NestsIn m) :
    (Expr.map kvs loc).NestsIn (m + 1) := by
  refine nestsIn_iff.mpr (List.forall_mem_map.mpr fun kv hkv => ⟨Nat.le_add_left 1 m, ?_⟩)
  exact h kv hkv

/-- A single index stands for itself, and no index at all makes an array without items. -/
theorem NestsIn.collect (h : ∀ e ∈ es, 0 < m ∧ e.NestsIn (m - 1)) :
    (Expr.collect es loc).NestsIn m := by
  unfold Expr.collect
  split
  · rename_i e
    exact (h e (List.mem_singleton_self e)).2.mono (Nat.sub_le m 1)
  · cases es with
    | nil => exact nestsIn_of_edges_nil rfl
    | cons e es =>
      have hm := (h e List.mem_cons_self).1
      have harray : (Expr.array (e :: es) loc).NestsIn (m - 1 + 1) := .array fun x hx => (h x hx).2
      exact harray.mono (Nat.sub_add_cancel hm).le

end

end Expr

namespace Grammar

open EL.Expr (NestsIn)

/-- What the trees of a phrase allow that is read inside of `b` operands, if there may be `n`. What
    continues a chain or a row of subscripts goes no further than the chain or the target. -/
def Phrase.NestsWithin (n b : Nat) : Phrase → Prop
  | .expression e => b < n ∧ e.NestsIn (5 * (n - b) - 2)
  | .term e => b < n ∧ e.NestsIn (5 * (n - b) - 3)
  | .operand e => b < n ∧ e.NestsIn (5 * (n - b) - 4)
  | .simple e => b < n → e.NestsIn (5 * (n - b) - 4)
  | .tail e e' => ∀ m, 5 * (n - b) - 3 ≤ m → e.NestsIn m → e'.NestsIn m
  | .subscripts e e' => b < n → e.NestsIn (5 * (n - b) - 4) → e'.NestsIn (5 * (n - b) - 4)
  | .item _ e => b + 1 < n ∧ e.NestsIn (5 * (n - b) - 6)
  | .listing _ es | .items _ es => ∀ e ∈ es, b + 1 < n ∧ e.NestsIn (5 * (n - b) - 6)
  | .entries m m' => (∀ kv ∈ m, kv.2.NestsIn (5 * (n - b) - 6)) →
      ∀ kv ∈ m', kv.2.NestsIn (5 * (n - b) - 6)

section
variable {π : Policy} {n b : Nat} {p : Phrase} {ts : List Token} {k : Kind}

/-- Items of brackets in an operand, which has one step to each of them. -/
theorem nestsIn_items {es : List Expr} (h : (Phrase.listing .array es).NestsWithin n b) :
    ∀ e ∈ es, e.NestsIn (5 * (n - b) - 5) :=
  fun e he => (h e he).2.mono (by omega)

/-- The values of a map are expressions one operand further in. -/
theorem nestsIn_insertEntry {key : String} {e : Expr} {m : List (String × Expr)}
    (he : (Phrase.expression e).NestsWithin n (b + 1))
    (hm : ∀ kv ∈ m, kv.2.NestsIn (5 * (n - b) - 6)) :
    ∀ kv ∈ Expr.insertEntry key e m, kv.2.NestsIn (5 * (n - b) - 6) := by
  intro kv hkv
  rcases Expr.mem_insertEntry hkv with rfl | hkv
  · exact he.2.mono (by omega)
  · exact hm kv hkv

/-- The bounds of a range are expressions one operand further in, and the range is one step above
    them. -/
theorem nestsWithin_bounds {s : Parser.Shape} {lo hi : Expr} {loc : Location}
    (hl : (Phrase.expression lo).NestsWithin n (b + 1))
    (hh : (Phrase.expression hi).NestsWithin n (b + 1)) :
    (Phrase.item s (.binary .boundedRange lo hi loc)).NestsWithin n b := by
  obtain ⟨hb, hl⟩ := hl
  have hrange : (Expr.binary .boundedRange lo hi loc).NestsIn (5 * (n - (b + 1)) - 2 + 1) :=
    .binary (hl.mono (Nat.le_succ _)) hh.2
  exact ⟨hb, hrange.mono (by omega)⟩

theorem nestsWithin_bound {s : Parser.Shape} {op : UnaryOp} {e : Expr} {loc : Location}
    (he : (Phrase.expression e).NestsWithin n (b + 1)) :
    (Phrase.item s (.unary op e loc)).NestsWithin n b :=
  ⟨he.1, he.2.unary.mono (by have := he.1; omega)⟩

/-- **Under a limit a tree nests no further than the operands that it may have allow.** -/
theorem Derives.nestsWithin (h : Derives π (some n) b p ts k) : p.NestsWithin n b := by
  induction h with
  | grouped _ _ _ _ iht ihu =>
    obtain ⟨hb, ht⟩ := iht
    exact ⟨hb, ihu _ (by omega) (ht.unary.mono (by omega))⟩
  | ungrouped _ _ ih => exact ⟨ih.1, ih.2.mono (by omega)⟩
  | chain _ _ iho ihu => exact ⟨iho.1, ihu _ (Nat.le_refl _) (iho.2.mono (by omega))⟩
  | tailEnd => exact fun m _ he => he
  | tailMore _ _ _ ihr ihu =>
    intro m hm he
    obtain ⟨hb, hr⟩ := ihr
    obtain ⟨m, rfl⟩ : ∃ m', m = m' + 1 := ⟨m - 1, by omega⟩
    exact ihu _ hm (he.binary (hr.mono (by omega)))
  | subscripted hb _ _ _ ihs ihu =>
    have hb := hb n rfl
    exact ⟨hb, ihu hb (ihs hb)⟩
  | switch hb _ _ ih =>
    have hb := hb n rfl
    exact ⟨hb, (NestsIn.switch (nestsIn_items ih)).mono (by omega)⟩
  | atom ht =>
    intro _
    rcases Token.eq_of_atom? ht with ⟨v, loc, rfl⟩ | ⟨x, loc, rfl⟩ <;>
      exact Expr.nestsIn_of_edges_nil rfl
  | sign _ _ ih => exact fun hb => ih.2.unary.mono (by omega)
  | parens _ _ _ _ _ iht ihu =>
    obtain ⟨hb, ht⟩ := iht
    exact fun _ => ihu _ (by omega) (ht.unary.mono (by omega))
  | array _ _ ih => exact fun hb => (NestsIn.array (nestsIn_items ih)).mono (by omega)
  | emptyMap => exact fun _ => Expr.nestsIn_of_edges_nil rfl
  | map _ _ ih =>
    exact fun hb => (NestsIn.map (ih fun kv hkv => by cases hkv)).mono (by omega)
  | subscriptsEnd => exact fun _ he => he
  | @subscriptsMore b o _ _ _ _ _ es _ _ _ ihs ihu =>
    intro hb he
    have hindex : (Expr.collect es o.location).NestsIn (5 * (n - b) - 5) :=
      .collect fun e he => ⟨by have := (ihs e he).1; omega, (ihs e he).2⟩
    have htarget := he.mono (show _ ≤ 5 * (n - b) - 5 + 1 by omega)
    exact ihu hb ((NestsIn.subscript htarget hindex).mono (by omega))
  | noItems => exact fun e he => by cases he
  | someItems _ _ ih => exact ih
  | lastItem _ _ ih => exact List.forall_mem_singleton.mpr ih
  | moreItems _ _ _ ihi ihs => exact List.forall_mem_cons.mpr ⟨ihi, ihs⟩
  | bare _ ih => exact ⟨ih.1, ih.2.mono (by omega)⟩
  | bounded _ _ _ ihl ihh | boundedIndex _ _ _ _ ihl ihh => exact nestsWithin_bounds ihl ihh
  | leftBounded _ _ ih | rightBounded _ _ ih => exact nestsWithin_bound ih
  | lastEntry _ _ _ _ ih => exact fun hm => nestsIn_insertEntry ih hm
  | moreEntries _ _ _ _ _ ihe ihm => exact fun hm => ihm (nestsIn_insertEntry ihe hm)

end

end Grammar

/-- **A limit on the depth bounds the nesting of trees.** With a limit of `n` operands, no way down
    from the root of a tree that is read counts more than `5 * n - 2` steps, where steps to the left
    operand of a binary node and to the target of a subscript do not count. Without any operand nothing
    is read. -/
theorem parse_nesting {c stop : Cursor} {mode : Mode} {path : Option String} {n : Nat} {e : Expr}
    (h : c.parse ⟨mode, path, some n⟩ = (.ok e, stop)) :
    0 < n ∧ ∀ k x, e.Path k x → k ≤ 5 * n - 2 := by
  obtain ⟨c', ts, -, hd⟩ := exists_derives_of_parse h
  exact hd.nestsWithin

/-- In `(x + y[])`, which is read with a limit of one, the array without items stands three steps
    below the root: in the index of the right operand of what is in the parentheses. -/
theorem parse_nesting_index :
    ∃ e stop, (Cursor.ofText "(x + y[])").parse ⟨.strict, none, some 1⟩ = (.ok e, stop) ∧
      e.Path 3 (.array [] ⟨1, 7⟩) ∧ 0 < 1 ∧ ∀ k x, e.Path k x → k ≤ 5 * 1 - 2 := by
  have htree : ((Cursor.ofText "(x + y[])").parse ⟨.strict, none, some 1⟩).1 =
      .ok (.unary .group (.binary .addition (.var "x" ⟨1, 2⟩)
        (.subscript (.var "y" ⟨1, 6⟩) (.array [] ⟨1, 7⟩) ⟨1, 7⟩) ⟨1, 4⟩) ⟨1, 1⟩) :=
    parse_strict_iff.mpr ⟨_, Cursor.tokens_of_scanWithin 9 rfl, rfl⟩
  have hparse := Prod.ext (x := (Cursor.ofText "(x + y[])").parse ⟨.strict, none, some 1⟩)
    (y := (_, _)) htree rfl
  refine ⟨_, _, hparse, ?_, parse_nesting hparse⟩
  refine .down (j := 1) (k := 2) (.head _) ?_
  refine .down (j := 1) (k := 1) (.tail _ (.head _)) ?_
  exact .down (j := 1) (k := 0) (.tail _ (.head _)) (.here _)

end EL
