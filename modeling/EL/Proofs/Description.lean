import EL.Expr.Description
import EL.Expr.Same
import EL.Proofs.Json.Indented
import EL.Proofs.Nodes

/-!
# A description leaves nothing out

The description of a tree has a field for everything that is in the tree, and it is printed as JSON that
determines it. So **trees whose numbers are finite are printed alike only if they are one and the same
tree**, places and the signs of zeros included (`toJson_faithful`). Without the fields for the places, and with
no difference between the two zeros, **descriptions are equal just if the trees are**.

The keys of a map are the keys of an object of their own, which is why they cannot be taken for the fields
of a node: an entry called `line` stays where places are left out.
-/

set_option autoImplicit false

namespace EL

namespace Json

mutual

/-- The description of a node, without its place and those of the nodes below it. -/
def unplaced : Json → Json
  | array items => array (unplacedItems items)
  | object fields => object (unplacedFields fields)
  | j => j

/-- The descriptions of the values of a map, without places, under all of their keys. -/
def unplacedMap : Json → Json
  | object entries => object (unplacedEntries entries)
  | j => j

/-- The descriptions of the nodes in a list. -/
def unplacedItems : List Json → List Json
  | [] => []
  | j :: js => j.unplaced :: unplacedItems js

/-- The fields of a node. -/
def unplacedFields : List (String × Json) → List (String × Json)
  | [] => []
  | (key, j) :: fields =>
    if key = "line" ∨ key = "column" then unplacedFields fields
    else (key, if key = "entries" then j.unplacedMap else j.unplaced) :: unplacedFields fields

/-- The entries of a map. -/
def unplacedEntries : List (String × Json) → List (String × Json)
  | [] => []
  | (key, j) :: entries => (key, j.unplaced) :: unplacedEntries entries

end

mutual

/-- Are two values equal, the signs of zeros left aside? -/
def same : Json → Json → Bool
  | null, null => true
  | bool a, bool b => a = b
  | count m, count n => m = n
  | real s m, real t n => m = n && (s = t || m = .zero)
  | string v, string w => v = w
  | array as, array bs => sameItems as bs
  | object as, object bs => sameFields as bs
  | _, _ => false

/-- Are the items of two arrays equal, one by one? -/
def sameItems : List Json → List Json → Bool
  | [], [] => true
  | a :: as, b :: bs => a.same b && sameItems as bs
  | _, _ => false

/-- Are the keys and values of two objects equal, one by one? -/
def sameFields : List (String × Json) → List (String × Json) → Bool
  | [], [] => true
  | (k, a) :: as, (l, b) :: bs => k = l && a.same b && sameFields as bs
  | _, _ => false

end

end Json

/-! ## Names of operators -/

theorem UnaryOp.find?_name (op : UnaryOp) : UnaryOp.all.find? (·.name = op.name) = some op := by
  cases op <;> rfl

theorem UnaryOp.name_inj {o p : UnaryOp} : o.name = p.name ↔ o = p := by
  refine ⟨fun h => ?_, congrArg name⟩
  have hfind := o.find?_name
  rw [h, p.find?_name] at hfind
  exact (Option.some.inj hfind).symm

theorem BinaryOp.find?_name (op : BinaryOp) : BinaryOp.all.find? (·.name = op.name) = some op := by
  cases op <;> rfl

theorem BinaryOp.name_inj {o p : BinaryOp} : o.name = p.name ↔ o = p := by
  refine ⟨fun h => ?_, congrArg name⟩
  have hfind := o.find?_name
  rw [h, p.find?_name] at hfind
  exact (Option.some.inj hfind).symm

namespace Expr

/-- If this is a number, then it is a finite one. -/
def FiniteNumber : Expr → Prop
  | literal (.number n) _ => n.isFinite = true
  | _ => True

section
variable {v w : Literal} {l m : Location}

/-- Two literals are described alike only if they are one. -/
theorem literalJson_injective (hv : (literal v l).FiniteNumber) (hw : (literal w m).FiniteNumber)
    (h : literalJson v = literalJson w) : v = w := by
  rcases v with _ | (_ | _ | _) | _ | _ <;> rcases w with _ | (_ | _ | _) | _ | _ <;>
    simp_all [literalJson, Json.ofNumber, FiniteNumber, Number.isFinite]

/-- Literals are equal just if their descriptions are, the signs of zeros left aside. -/
theorem literalJson_same (hv : (literal v l).FiniteNumber) (hw : (literal w m).FiniteNumber) :
    (literalJson v).unplaced.same (literalJson w).unplaced = v.same w := by
  rcases v with _ | (_ | _ | _) | _ | _ <;> rcases w with _ | (_ | _ | _) | _ | _ <;>
    simp_all [literalJson, Json.ofNumber, FiniteNumber, Number.isFinite, Json.unplaced, Json.same,
      Literal.same, Number.same]

theorem location_inj (hcolumn : l.column = m.column) (hline : l.line = m.line) : l = m := by
  cases l
  cases m
  simp_all

end

mutual

/-- **A tree is determined by its description.** -/
theorem toJson_injective : ∀ a b : Expr, a.All FiniteNumber → b.All FiniteNumber →
    a.toJson = b.toJson → a = b
  | literal v l => by
    intro b ha hb h
    cases b with
    | literal w m =>
      simp only [toJson, Json.object.injEq, List.cons.injEq, Prod.mk.injEq, Json.count.injEq,
        true_and, and_true] at h
      obtain ⟨hcolumn, hline, hvalue⟩ := h
      rw [literalJson_injective ha.root hb.root hvalue, location_inj hcolumn hline]
    | _ => simp [toJson] at h
  | var x l => by
    intro b _ _ h
    cases b with
    | var y m =>
      simp only [toJson, Json.object.injEq, List.cons.injEq, Prod.mk.injEq, Json.count.injEq,
        Json.string.injEq, true_and, and_true] at h
      obtain ⟨hcolumn, hline, rfl⟩ := h
      rw [location_inj hcolumn hline]
    | _ => simp [toJson] at h
  | unary o a l => by
    intro c ha hc h
    cases c with
    | unary p b m =>
      simp only [toJson, Json.object.injEq, List.cons.injEq, Prod.mk.injEq, Json.count.injEq,
        Json.string.injEq, true_and, and_true] at h
      obtain ⟨hcolumn, hline, hop, hoperand⟩ := h
      rw [UnaryOp.name_inj.mp hop, location_inj hcolumn hline,
        toJson_injective a b (all_unary.mp ha).2 (all_unary.mp hc).2 hoperand]
    | _ => simp [toJson] at h
  | binary o a b l => by
    intro c hab hc h
    cases c with
    | binary p a' b' m =>
      simp only [toJson, Json.object.injEq, List.cons.injEq, Prod.mk.injEq, Json.count.injEq,
        Json.string.injEq, true_and, and_true] at h
      obtain ⟨hcolumn, hleft, hline, hop, hright⟩ := h
      obtain ⟨-, ha, hb⟩ := all_binary.mp hab
      obtain ⟨-, ha', hb'⟩ := all_binary.mp hc
      rw [BinaryOp.name_inj.mp hop, location_inj hcolumn hline, toJson_injective a a' ha ha' hleft,
        toJson_injective b b' hb hb' hright]
    | _ => simp [toJson] at h
  | array as l => by
    intro c ha hc h
    cases c with
    | array bs m =>
      simp only [toJson, Json.object.injEq, List.cons.injEq, Prod.mk.injEq, Json.count.injEq,
        Json.array.injEq, true_and, and_true] at h
      obtain ⟨hcolumn, helements, hline⟩ := h
      rw [location_inj hcolumn hline,
        listToJson_injective as bs (all_array.mp ha).2 (all_array.mp hc).2 helements]
    | _ => simp [toJson] at h
  | map as l => by
    intro c ha hc h
    cases c with
    | map bs m =>
      simp only [toJson, Json.object.injEq, List.cons.injEq, Prod.mk.injEq, Json.count.injEq,
        true_and, and_true] at h
      obtain ⟨hcolumn, hentries, hline⟩ := h
      rw [location_inj hcolumn hline,
        entriesToJson_injective as bs (all_map.mp ha).2 (all_map.mp hc).2 hentries]
    | _ => simp [toJson] at h
  | switch as l => by
    intro c ha hc h
    cases c with
    | switch bs m =>
      simp only [toJson, Json.object.injEq, List.cons.injEq, Prod.mk.injEq, Json.count.injEq,
        Json.array.injEq, true_and, and_true] at h
      obtain ⟨hbranches, hcolumn, hline⟩ := h
      rw [location_inj hcolumn hline,
        listToJson_injective as bs (all_switch.mp ha).2 (all_switch.mp hc).2 hbranches]
    | _ => simp [toJson] at h
  | subscript a i l => by
    intro c hai hc h
    cases c with
    | subscript a' i' m =>
      simp only [toJson, Json.object.injEq, List.cons.injEq, Prod.mk.injEq, Json.count.injEq,
        true_and, and_true] at h
      obtain ⟨hcolumn, hindex, hline, htarget⟩ := h
      obtain ⟨-, ha, hi⟩ := all_subscript.mp hai
      obtain ⟨-, ha', hi'⟩ := all_subscript.mp hc
      rw [location_inj hcolumn hline, toJson_injective a a' ha ha' htarget,
        toJson_injective i i' hi hi' hindex]
    | _ => simp [toJson] at h

theorem listToJson_injective : ∀ as bs : List Expr, (∀ e ∈ as, e.All FiniteNumber) →
    (∀ e ∈ bs, e.All FiniteNumber) → listToJson as = listToJson bs → as = bs
  | [], [], _, _, _ => rfl
  | [], _ :: _, _, _, h => by cases h
  | _ :: _, [], _, _, h => by cases h
  | a :: as, b :: bs, has, hbs, h => by
    obtain ⟨ha, has⟩ := List.forall_mem_cons.mp has
    obtain ⟨hb, hbs⟩ := List.forall_mem_cons.mp hbs
    obtain ⟨hhead, htail⟩ := List.cons.inj h
    rw [toJson_injective a b ha hb hhead, listToJson_injective as bs has hbs htail]

theorem entriesToJson_injective : ∀ as bs : List (String × Expr),
    (∀ kv ∈ as, kv.2.All FiniteNumber) → (∀ kv ∈ bs, kv.2.All FiniteNumber) →
    entriesToJson as = entriesToJson bs → as = bs
  | [], [], _, _, _ => rfl
  | [], (_, _) :: _, _, _, h => by cases h
  | (_, _) :: _, [], _, _, h => by cases h
  | (k, a) :: as, (l, b) :: bs, has, hbs, h => by
    obtain ⟨ha, has⟩ := List.forall_mem_cons.mp has
    obtain ⟨hb, hbs⟩ := List.forall_mem_cons.mp hbs
    obtain ⟨hhead, htail⟩ := List.cons.inj h
    obtain ⟨hkey, hvalue⟩ := Prod.mk.inj hhead
    rw [hkey, toJson_injective a b ha hb hvalue, entriesToJson_injective as bs has hbs htail]

end

/-! ## Descriptions without places -/

section
variable {l : Location}

@[simp] theorem unplaced_literal (v : Literal) : (literal v l).toJson.unplaced =
    .object [("type", .string "literal"), ("value", (literalJson v).unplaced)] := by
  simp [toJson, Json.unplaced, Json.unplacedFields]

@[simp] theorem unplaced_var (x : String) : (var x l).toJson.unplaced =
    .object [("name", .string x), ("type", .string "variable")] := by
  simp [toJson, Json.unplaced, Json.unplacedFields]

@[simp] theorem unplaced_unary (op : UnaryOp) (e : Expr) : (unary op e l).toJson.unplaced =
    .object [("op", .string op.name), ("operand", e.toJson.unplaced), ("type", .string "unary")] := by
  simp [toJson, Json.unplaced, Json.unplacedFields]

@[simp] theorem unplaced_binary (op : BinaryOp) (a b : Expr) : (binary op a b l).toJson.unplaced =
    .object [("left", a.toJson.unplaced), ("op", .string op.name), ("right", b.toJson.unplaced),
      ("type", .string "binary")] := by
  simp [toJson, Json.unplaced, Json.unplacedFields]

@[simp] theorem unplaced_array (es : List Expr) : (array es l).toJson.unplaced =
    .object [("elements", .array (Json.unplacedItems (listToJson es))),
      ("type", .string "array")] := by
  simp [toJson, Json.unplaced, Json.unplacedFields]

@[simp] theorem unplaced_map (kvs : List (String × Expr)) : (map kvs l).toJson.unplaced =
    .object [("entries", .object (Json.unplacedEntries (entriesToJson kvs))),
      ("type", .string "map")] := by
  simp [toJson, Json.unplaced, Json.unplacedFields, Json.unplacedMap]

@[simp] theorem unplaced_switch (es : List Expr) : (switch es l).toJson.unplaced =
    .object [("branches", .array (Json.unplacedItems (listToJson es))),
      ("type", .string "switch")] := by
  simp [toJson, Json.unplaced, Json.unplacedFields]

@[simp] theorem unplaced_subscript (a b : Expr) : (subscript a b l).toJson.unplaced =
    .object [("index", b.toJson.unplaced), ("target", a.toJson.unplaced),
      ("type", .string "subscript")] := by
  simp [toJson, Json.unplaced, Json.unplacedFields]

end

mutual

/-- **Trees are equal just if their descriptions are**, places and the signs of zeros left aside. -/
theorem same_unplaced : ∀ a b : Expr, a.All FiniteNumber → b.All FiniteNumber →
    a.toJson.unplaced.same b.toJson.unplaced = a.same b
  | literal v l => by
    intro b ha hb
    cases b with
    | literal w m =>
      have hvalue := literalJson_same ha.root hb.root
      simp [Json.same, Json.sameFields, same, hvalue]
    | _ => simp [Json.same, Json.sameFields, same]
  | var x l => by
    intro b _ _
    cases b <;> simp [Json.same, Json.sameFields, same]
  | unary o a l => by
    intro c ha hc
    cases c with
    | unary p b m =>
      have hoperand := same_unplaced a b (all_unary.mp ha).2 (all_unary.mp hc).2
      simp [Json.same, Json.sameFields, same, hoperand, UnaryOp.name_inj]
    | _ => simp [Json.same, Json.sameFields, same]
  | binary o a b l => by
    intro c hab hc
    cases c with
    | binary p a' b' m =>
      obtain ⟨-, ha, hb⟩ := all_binary.mp hab
      obtain ⟨-, ha', hb'⟩ := all_binary.mp hc
      have hleft := same_unplaced a a' ha ha'
      have hright := same_unplaced b b' hb hb'
      simp [Json.same, Json.sameFields, same, hleft, hright, BinaryOp.name_inj, Bool.and_assoc,
        Bool.and_left_comm]
    | _ => simp [Json.same, Json.sameFields, same]
  | array as l => by
    intro c ha hc
    cases c with
    | array bs m =>
      have helements := same_unplacedItems as bs (all_array.mp ha).2 (all_array.mp hc).2
      simp [Json.same, Json.sameFields, same, helements]
    | _ => simp [Json.same, Json.sameFields, same]
  | map as l => by
    intro c ha hc
    cases c with
    | map bs m =>
      have hentries := same_unplacedEntries as bs (all_map.mp ha).2 (all_map.mp hc).2
      simp [Json.same, Json.sameFields, same, hentries]
    | _ => simp [Json.same, Json.sameFields, same]
  | switch as l => by
    intro c ha hc
    cases c with
    | switch bs m =>
      have hbranches := same_unplacedItems as bs (all_switch.mp ha).2 (all_switch.mp hc).2
      simp [Json.same, Json.sameFields, same, hbranches]
    | _ => simp [Json.same, Json.sameFields, same]
  | subscript a i l => by
    intro c hai hc
    cases c with
    | subscript a' i' m =>
      obtain ⟨-, ha, hi⟩ := all_subscript.mp hai
      obtain ⟨-, ha', hi'⟩ := all_subscript.mp hc
      have htarget := same_unplaced a a' ha ha'
      have hindex := same_unplaced i i' hi hi'
      simp [Json.same, Json.sameFields, same, htarget, hindex, Bool.and_comm]
    | _ => simp [Json.same, Json.sameFields, same]

theorem same_unplacedItems : ∀ as bs : List Expr, (∀ e ∈ as, e.All FiniteNumber) →
    (∀ e ∈ bs, e.All FiniteNumber) →
    Json.sameItems (Json.unplacedItems (listToJson as)) (Json.unplacedItems (listToJson bs)) =
      sameList as bs
  | [], [], _, _ => rfl
  | [], _ :: _, _, _ => rfl
  | _ :: _, [], _, _ => rfl
  | a :: as, b :: bs, has, hbs => by
    obtain ⟨ha, has⟩ := List.forall_mem_cons.mp has
    obtain ⟨hb, hbs⟩ := List.forall_mem_cons.mp hbs
    simp only [listToJson, Json.unplacedItems, Json.sameItems, sameList, same_unplaced a b ha hb,
      same_unplacedItems as bs has hbs]

theorem same_unplacedEntries : ∀ as bs : List (String × Expr),
    (∀ kv ∈ as, kv.2.All FiniteNumber) → (∀ kv ∈ bs, kv.2.All FiniteNumber) →
    Json.sameFields (Json.unplacedEntries (entriesToJson as))
      (Json.unplacedEntries (entriesToJson bs)) = sameEntries as bs
  | [], [], _, _ => rfl
  | [], (_, _) :: _, _, _ => rfl
  | (_, _) :: _, [], _, _ => rfl
  | (k, a) :: as, (l, b) :: bs, has, hbs => by
    obtain ⟨ha, has⟩ := List.forall_mem_cons.mp has
    obtain ⟨hb, hbs⟩ := List.forall_mem_cons.mp hbs
    simp only [entriesToJson, Json.unplacedEntries, Json.sameFields, sameEntries,
      same_unplaced a b ha hb, same_unplacedEntries as bs has hbs]

end

end Expr

end EL
