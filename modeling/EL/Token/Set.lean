import EL.Text.Join
import EL.Token.Kind

/-!
# Sets of token kinds

What may come next is a set of kinds, and a refusal names the set that was wanted. A `TokenSet`
is its membership test and nothing more: two sets with the same members are equal, however they
were put together, and so they are described alike.
-/

set_option autoImplicit false

namespace EL

/-- A set of kinds. -/
@[ext]
structure TokenSet where
  /-- Is this kind in the set? -/
  has : Kind → Bool

namespace TokenSet

instance : Membership Kind TokenSet := ⟨fun s k => s.has k = true⟩

instance (k : Kind) (s : TokenSet) : Decidable (k ∈ s) :=
  inferInstanceAs (Decidable (s.has k = true))

instance : EmptyCollection TokenSet := ⟨⟨fun _ => false⟩⟩

instance : Singleton Kind TokenSet := ⟨fun k => ⟨fun l => l == k⟩⟩

instance : Insert Kind TokenSet := ⟨fun k s => ⟨fun l => l == k || s.has l⟩⟩

instance : Union TokenSet := ⟨fun s t => ⟨fun k => s.has k || t.has k⟩⟩

/-- The set of the kinds in a list. -/
def ofList (ks : List Kind) : TokenSet := ⟨fun k => ks.contains k⟩

theorem mem_def {s : TokenSet} {k : Kind} : k ∈ s ↔ s.has k = true := Iff.rfl

@[simp] theorem not_mem_empty (k : Kind) : ¬ k ∈ (∅ : TokenSet) := by
  simp [mem_def, EmptyCollection.emptyCollection]

@[simp] theorem mem_singleton {k l : Kind} : l ∈ ({k} : TokenSet) ↔ l = k := by
  simp [mem_def, Singleton.singleton]

@[simp] theorem mem_insert {s : TokenSet} {k l : Kind} : l ∈ insert k s ↔ l = k ∨ l ∈ s := by
  simp [mem_def, Insert.insert]

@[simp] theorem mem_union {s t : TokenSet} {k : Kind} : k ∈ s ∪ t ↔ k ∈ s ∨ k ∈ t := by
  simp [mem_def, Union.union]

@[simp] theorem mem_ofList {ks : List Kind} {k : Kind} : k ∈ ofList ks ↔ k ∈ ks := by
  simp [mem_def, ofList]

/-- The members, in the order of messages. -/
def kinds (s : TokenSet) : List Kind := Kind.all.filter s.has

theorem mem_kinds {s : TokenSet} {k : Kind} : k ∈ s.kinds ↔ k ∈ s := by
  simp [kinds, Kind.mem_all, mem_def]

theorem nodup_kinds (s : TokenSet) : s.kinds.Nodup := Kind.nodup_all.sublist List.filter_sublist

/-- A list of alternatives in words: `a`, `a or b`, `a, b, or c`. -/
def alternatives : List String → String
  | [] => "unknown token type"
  | [a] => a
  | [a, b] => a ++ " or " ++ b
  | a :: b :: c :: r =>
    let last := (c :: r).getLast (List.cons_ne_nil c r)
    Text.joinWith ", " (a :: b :: (c :: r).dropLast) ++ ", or " ++ last

/-- The members in words. -/
def describe (s : TokenSet) : String := alternatives (s.kinds.map Kind.describe)

/-! ## The sets that the grammar speaks of -/

/-- Tokens that are a literal by themselves. -/
def literal : TokenSet := {.string, .number, .boolean, .null}

/-- Tokens that stand in front of an operand and change its value. -/
def sign : TokenSet := {.plus, .minus, .exclamation, .tilde}

/-- Tokens that begin a simple term. -/
def simpleTerm : TokenSet :=
  sign ∪ literal ∪ {.openParen, .name, .openBracket, .openBrace}

/-- Tokens that stand between two operands. -/
def chaining : TokenSet :=
  {.plus, .minus, .star, .slash, .percent, .andAnd, .orOr, .ampersand, .pipe, .caret, .shiftLeft,
   .shiftRight, .less, .lessOrEqual, .greater, .greaterOrEqual, .equal, .notEqual, .arrow}

/-- Tokens that begin an operand: a simple term or a switch. -/
def operand : TokenSet := simpleTerm ∪ {.openSwitch}

end TokenSet

end EL
