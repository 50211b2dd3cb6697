import EL.Proofs.Json.Compact
import Mathlib.Data.List.Forall2

/-!
# The indented form of JSON determines the value

The indented form is for readers. It is the compact form with blanks between its parts, so **without the
blanks outside its strings it is the compact form** (`pack_indented`), and no more is needed to tell
values apart by it.
-/

set_option autoImplicit false

namespace EL.Json

open Text (joinWith)

/-- Where a text of JSON is with respect to its strings. -/
inductive Quoting where
  | outside
  | inside
  /-- Inside, behind a backslash. -/
  | escaped

/-- A text of JSON without the blanks outside its strings. -/
def pack : Quoting → List Char → List Char
  | _, [] => []
  | .outside, c :: r =>
    if c = ' ' ∨ c = '\n' then pack .outside r
    else c :: pack (if c = '"' then .inside else .outside) r
  | .inside, c :: r =>
    c :: pack (if c = '"' then .outside else if c = '\\' then .escaped else .inside) r
  | .escaped, c :: r => c :: pack .inside r

/-- Without its blanks the first text is the second one, and no string is left open. -/
def Packs (x y : String) : Prop :=
  ∀ r, pack .outside (x.toList ++ r) = y.toList ++ pack .outside r

namespace Packs

variable {x y x' y' : String}

theorem append (h : Packs x y) (h' : Packs x' y') : Packs (x ++ x') (y ++ y') := by
  intro r
  rw [String.toList_append, String.toList_append, List.append_assoc, List.append_assoc, h, h']

/-- A text without blanks and quotes. -/
theorem plain (h : ∀ c ∈ x.toList, c ≠ ' ' ∧ c ≠ '\n' ∧ c ≠ '"') : Packs x x := by
  intro r
  generalize x.toList = cs at h
  induction cs with
  | nil => rfl
  | cons c cs ih =>
    obtain ⟨⟨hspace, hline, hquote⟩, hcs⟩ := List.forall_mem_cons.mp h
    rw [List.cons_append, pack, if_neg (not_or.mpr ⟨hspace, hline⟩), if_neg hquote, ih hcs]
    rfl

/-- Nothing but blanks. -/
theorem blank (h : ∀ c ∈ x.toList, c = ' ' ∨ c = '\n') : Packs x "" := by
  intro r
  generalize x.toList = cs at h
  induction cs with
  | nil => rfl
  | cons c cs ih =>
    obtain ⟨hc, hcs⟩ := List.forall_mem_cons.mp h
    rw [List.cons_append, pack, if_pos hc, ih hcs]

theorem append_blank (h : Packs x y) (hblank : Packs x' "") : Packs (x ++ x') y := by
  have happend := h.append hblank
  rwa [String.append_empty] at happend

end Packs

/-! ## Strings -/

theorem hexDigit_ne : ∀ n < 16, hexDigit n ≠ '"' ∧ hexDigit n ≠ '\\' := by decide

/-- An escaped character leads back inside the string. -/
theorem pack_escapeChar (c : Char) (r : List Char) :
    pack .inside (escapeChar c ++ r) = escapeChar c ++ pack .inside r := by
  unfold escapeChar
  split_ifs with hquote hslash h1 h2 h3 h4 h5 hcontrol
  · rfl
  · rfl
  · rfl
  · rfl
  · rfl
  · rfl
  · rfl
  · have hhigh := hexDigit_ne (c.toNat / 16) (by omega)
    have hlow := hexDigit_ne (c.toNat % 16) (by omega)
    simp [pack, hhigh, hlow]
  · simp [pack, hquote, hslash]

theorem packs_quoted (v : String) : Packs (quoted v) (quoted v) := by
  intro r
  have hinside : ∀ cs : List Char, pack .inside (cs.flatMap escapeChar ++ '"' :: r) =
      cs.flatMap escapeChar ++ '"' :: pack .outside r := by
    intro cs
    induction cs with
    | nil => rfl
    | cons c cs ih => rw [List.flatMap_cons, List.append_assoc, pack_escapeChar, ih, List.append_assoc]
  rw [toList_quoted_append, toList_quoted_append, ← hinside]
  rfl

/-! ## Values -/

/-- A number has no blanks and no quotes. -/
theorem packs_number {x : String} (h : ∀ c ∈ x.toList, isNumeric c = true) : Packs x x := by
  refine .plain fun c hc => ?_
  have hnumeric := h c hc
  refine ⟨?_, ?_, ?_⟩ <;> rintro rfl <;> cases hnumeric

theorem packs_joinWith {sep : String} (hsep : Packs sep ",") {ts us : List String}
    (h : List.Forall₂ Packs ts us) : Packs (joinWith sep ts) (joinWith "," us) := by
  induction h with
  | nil => exact fun _ => rfl
  | @cons t u ts us htu hrest ih =>
    cases hrest with
    | nil => exact htu
    | cons => exact htu.append (hsep.append ih)

/-- A list on several lines is the list on one. -/
theorem packs_block (depth : Nat) {opening closing : String} (ho : Packs opening opening)
    (hc : Packs closing closing) {ts us : List String} (h : List.Forall₂ Packs ts us) :
    Packs (block depth opening ts closing) (opening ++ (joinWith "," us ++ closing)) := by
  have hline : ∀ n, Packs ("\n" ++ String.ofList (List.replicate (2 * n) ' ')) "" := by
    intro n
    refine .blank fun c hc => ?_
    rw [String.toList_append] at hc
    rcases List.mem_append.mp hc with hc | hc
    · exact .inr (List.mem_singleton.mp hc)
    · rw [String.toList_ofList] at hc
      exact .inl (List.eq_of_mem_replicate hc)
  have hcomma : Packs "," "," := fun _ => rfl
  cases h with
  | nil => exact ho.append hc
  | @cons t u ts us htu hrest =>
    have hitems := packs_joinWith (hcomma.append_blank (hline (depth + 1)))
      (List.Forall₂.cons htu hrest)
    have hblock := ho.append ((hline (depth + 1)).append
      (hitems.append ((hline depth).append hc)))
    rwa [String.empty_append, String.empty_append] at hblock

mutual

/-- The indented form of a value is its compact form and blanks. -/
theorem packs_indentedAt (depth : Nat) : ∀ j : Json, Packs (j.indentedAt depth) j.compact
  | null => Packs.plain (x := "null") (by simp)
  | bool true => Packs.plain (x := "true") (by simp)
  | bool false => Packs.plain (x := "false") (by simp)
  | count n => packs_number fun c hc => isNumeric_of_mem_count (n := n) hc
  | real b m => packs_number fun c hc => isNumeric_of_mem_real (b := b) (x := m) hc
  | string v => packs_quoted v
  | array items =>
    packs_block depth (fun _ => rfl) (fun _ => rfl) (packs_indentedItems (depth + 1) items)
  | object fields =>
    packs_block depth (fun _ => rfl) (fun _ => rfl) (packs_indentedFields (depth + 1) fields)

theorem packs_indentedItems (depth : Nat) : ∀ js : List Json,
    List.Forall₂ Packs (indentedItems depth js) (compactItems js)
  | [] => .nil
  | j :: js => .cons (packs_indentedAt depth j) (packs_indentedItems depth js)

theorem packs_indentedFields (depth : Nat) : ∀ fields : List (String × Json),
    List.Forall₂ Packs (indentedFields depth fields) (compactFields fields)
  | [] => .nil
  | (key, j) :: fields => by
    have hcolon : Packs ": " ":" := fun _ => rfl
    refine .cons ?_ (packs_indentedFields depth fields)
    exact (packs_quoted key).append (hcolon.append (packs_indentedAt depth j))

end

end EL.Json
