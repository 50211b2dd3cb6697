import EL.Proofs.Brackets
import EL.Proofs.Grammar.Language
import EL.Proofs.Same

/-!
# Printing and reading back

A tree that was read from a text can be printed, and what was printed can be read. **The second tree
is equal to the first, under the same limit of depth, whenever there is a second tree**; and there is
none just if a subscript lists, among two indices or more, a range whose upper bound is printed with
the braces of a switch first. Such a list was an array in brackets of its own, which the printer
leaves out.

The tokens in between are known on both sides: the source spells the tokens of the tree
(`spells_source`), and these are derived as the tree (`Derives.reprint`). What is left is the choice
that the parser may not follow the derivation in, and there it refuses (`respects_relaxed`). That it
accepts without need is excluded by counting brackets (`Derives.kept`).
-/

set_option autoImplicit false

namespace EL

open EL.Parser

/-! ## Trees that were read -/

theorem Token.printable_of_atom? {t : Token} {e : Expr}
    (hname : t.kind = .name → Lexeme.IsName t.text.toList) (h : t.atom? = some e) :
    e.Printable := by
  unfold Token.atom? at h
  split at h
  case h_1 hk =>
    cases h
    exact hname hk
  case h_3 =>
    split at h <;> cases h
    rename_i s m hn
    obtain rfl := Number.ofLiteral?_finite hn
    exact ⟨m, rfl⟩
  case h_6 => cases h
  all_goals
    cases h
    exact trivial

theorem Grammar.Derives.printable {π : Policy} {limit : Option Nat} {b : Nat} {e : Expr}
    {ts : List Token} {k : Kind} (h : Derives π limit b (.expression e) ts k)
    (hts : ∀ t ∈ ts, t.kind = .name → Lexeme.IsName t.text.toList) : e.All Expr.Printable := by
  refine h.all (fun t e ht he => Token.printable_of_atom? ht he) (fun e _ hleaf => ?_)
    (fun _ _ _ => trivial) hts
  cases e with
  | literal | var => exact absurd trivial hleaf
  | _ => exact trivial

theorem Expr.Printable.selfSame {e : Expr} (h : e.Printable) : e.SelfSame := by
  cases e with
  | literal v =>
    cases v with
    | number n =>
      obtain ⟨m, rfl⟩ := h
      exact Number.same_refl_of_isFinite (n := .finite false m) rfl
    | null => exact rfl
    | string | boolean => simp [SelfSame, Literal.same]
  | _ => exact trivial

/-! ## The braces of a switch -/

/-- The source of the tree begins with the braces of a switch. -/
def Expr.PrintsSwitch (e : Expr) : Prop := ['{', '{'] <+: e.source.toList

theorem Lexeme.openSwitch_iff {c : Char} {r cs : List Char} {x : Lexeme} (h : read c r = .ok x)
    (hx : c :: r = x.spelling ++ cs) : x.kind = .openSwitch ↔ ['{', '{'] <+: c :: r := by
  constructor
  · intro hk
    have hsymbols : ∀ s ∈ Kind.symbols, s.1 = .openSwitch → s.2 = ['{', '{'] := by decide
    have hkeywords : ∀ s ∈ Kind.keywords, s.1 ≠ .openSwitch := by decide
    cases found_of_read h with
    | symbol hs => exact ⟨cs, by rw [hx, hsymbols _ hs hk]⟩
    | keyword hs => exact absurd hk (hkeywords _ hs)
    | string | number | name => cases hk
  · rintro ⟨r', hr⟩
    cases hr
    cases h
    rfl

theorem Expr.opensSwitch_iff {e : Expr} (h : e.All Printable) : e.OpensSwitch ↔ e.PrintsSwitch := by
  obtain ⟨c, r, hcs, hspace, -⟩ := (prints_source h).leads
  have hspells := spells_source h
  unfold OpensSwitch PrintsSwitch
  rw [hcs] at hspells ⊢
  generalize e.tokens = ts at hspells
  cases hspells with
  | space => exact absurd rfl hspace
  | lexeme _ hread hx => exact Lexeme.openSwitch_iff hread hx

theorem Expr.ListsRangeTo.imp {P A B : Expr → Prop} (hAB : ∀ x, x.All P → A x → B x) {e : Expr}
    (he : e.All P) (h : e.ListsRangeTo A) : e.ListsRangeTo B := by
  unfold ListsRangeTo at h
  split at h
  case h_2 => cases h
  case h_1 es _ _ =>
    obtain ⟨hlen, x, hx, hrange⟩ := h
    have hP := (all_array.mp (all_subscript.mp he).2.2).2 x hx
    unfold RangeTo at hrange
    split at hrange
    · exact ⟨hlen, _, hx, hAB _ (all_binary.mp hP).2.2 hrange⟩
    · cases hrange

/-- The source of a tree tells as much as its tokens. -/
theorem Expr.allKept_iff {e : Expr} (h : e.All Printable) :
    Grammar.AllKept e ↔ e.All fun n => ¬ n.ListsRangeTo PrintsSwitch := by
  constructor <;> intro hkept n hn hlists
  · exact hkept n hn (hlists.imp (fun _ hx => (opensSwitch_iff hx).mpr) (h.all n hn))
  · exact hkept n hn (hlists.imp (fun _ hx => (opensSwitch_iff hx).mp) (h.all n hn))

namespace Expr

variable (f : Location → Location)

theorem rangeTo_relocate {B : Expr → Prop} (hB : ∀ x, B (x.relocate f) ↔ B x) (e : Expr) :
    (e.relocate f).RangeTo B ↔ e.RangeTo B := by
  cases e with
  | binary op =>
    cases op with
    | boundedRange => exact hB _
    | _ => exact Iff.rfl
  | _ => exact Iff.rfl

theorem listsRangeTo_relocate {B : Expr → Prop} (hB : ∀ x, B (x.relocate f) ↔ B x) (e : Expr) :
    (e.relocate f).ListsRangeTo B ↔ e.ListsRangeTo B := by
  cases e with
  | subscript x i =>
    cases i with
    | array es => simp [relocate, ListsRangeTo, relocateList_eq, rangeTo_relocate f hB]
    | _ => exact Iff.rfl
  | _ => exact Iff.rfl

end Expr

theorem Grammar.allKept_bare (e : Expr) : AllKept e.bare ↔ AllKept e := by
  refine Expr.all_relocate _ (fun n => not_congr (Expr.listsRangeTo_relocate _ (fun x => ?_) n)) e
  rw [Expr.OpensSwitch, Expr.OpensSwitch, Expr.tokens_relocate]

/-! ## Tokens -/

namespace Grammar

/-- No upper bound of a range in a subscript begins with a switch. -/
theorem read?_upperBound_openSwitch {limit : Option Nat} {l : Listing} {lo : Expr} {loc : Location}
    {c : Chain} {σ : List Frame} {t : Token} (ht : t.kind = .openSwitch) (ts : List Token) :
    read? limit ⟨.upperBound l lo loc, c, σ⟩ (t :: ts) = none := by
  have hsimple : ¬ t.kind ∈ TokenSet.simpleTerm := by rw [ht]; decide
  have hcomma : t.kind ≠ .comma := by rw [ht]; decide
  have hcloser : t.kind ≠ (l.add (.unary .leftBoundedRange lo loc)).closer := by
    rcases l.shape.closer_eq with h | h <;> exact fun hk => by cases ht.symm.trans (hk.trans h)
  have hstep : step limit ⟨.upperBound l lo loc, c, σ⟩ t =
      separate (l.add (.unary .leftBoundedRange lo loc)) c σ t := if_neg hsimple
  rw [separate, if_neg hcomma, if_neg hcloser] at hstep
  exact read?_refuse hstep

/-- Where the parser does not choose as a derivation does, it refuses. -/
theorem respects_relaxed (q : Prop) (limit : Option Nat) :
    Respects (.relaxed q) limit (fun x y => y = x ∨ ¬ q ∧ y = none) where
  refl _ := .inl rfl
  trans := by
    rintro x y z (rfl | ⟨hq, rfl⟩) (rfl | ⟨hq', rfl⟩)
    · exact .inl rfl
    · exact .inr ⟨hq', rfl⟩
    · exact .inr ⟨hq, rfl⟩
    · exact .inr ⟨hq, rfl⟩
  beginsTerm h := h
  tail h c e σ _ := .inl (read?_congr (step_closedGroup h c e c.depth σ))
  subscripts h c e σ _ := .inl (read?_congr (step_resume h c e σ)).symm
  upper {t} h ht l lo loc c σ rest := by
    rcases TokenSet.mem_union.mp ht with hsimple | hopen
    · exact .inl (read?_congr (step_upperBound_begins hsimple))
    · have hk : t.kind = .openSwitch := by simpa using hopen
      exact .inr ⟨fun hq => h hq hk, read?_upperBound_openSwitch hk rest⟩

/-- **What a printed tree is read as**: the tree, places aside, if no node of it lists a range up to a
    switch, and nothing otherwise. -/
theorem read?_tokens {limit : Option Nat} {e : Expr} {ts : List Token} {stop : Token}
    (h : Derives .longest limit 0 (.expression e) ts .endOfInput) (hstop : stop.kind = .endOfInput)
    (he : ∀ t ∈ e.tokens, t.kind ≠ .endOfInput) :
    (AllKept e → read? limit .initial (e.tokens ++ [stop]) = some e.bare) ∧
      (¬ AllKept e → read? limit .initial (e.tokens ++ [stop]) = none) := by
  have hend : BinaryOp.ofKind? stop.kind = none := by rw [hstop]; decide
  have hreprint := h.reprint (q := AllKept e) fun n hn hkept => hkept n hn
  have hread : read? limit .initial (e.tokens ++ [stop]) = some e.bare ∨
      ¬ AllKept e ∧ read? limit .initial (e.tokens ++ [stop]) = none := by
    have hfirst : read? limit ⟨.afterOperand e.bare, .fresh 0, []⟩ [stop] = some e.bare :=
      (read?_end hend).mpr ⟨hstop, rfl⟩
    rw [← hfirst]
    exact hreprint.runs (respects_relaxed _ limit) [] stop [] hstop
  refine ⟨fun hkept => hread.resolve_right fun hnone => hnone.1 hkept, fun hlists => ?_⟩
  refine (hread.resolve_left fun hsome => hlists ?_).2
  have hderives := (read?_iff_derives hstop he).mp hsome
  rw [← Expr.tokens_bare] at hderives
  exact (allKept_bare e).mp hderives.kept

end Grammar

/-! ## Texts -/

/-- What can be said of the source of a tree that was read. -/
theorem parse_source {c : Cursor} {path : Option String} {limit : Option Nat} {e : Expr}
    (h : (c.parse { path, limit }).1 = .ok e) :
    (∀ e', ((Cursor.ofText e.source).parse { path, limit }).1 = .ok e' →
      e'.bare = e.bare ∧ e.same e' = true ∧ Grammar.AllKept e) ∧
    (Grammar.AllKept e → ∃ e', ((Cursor.ofText e.source).parse { path, limit }).1 = .ok e') ∧
    (Grammar.AllKept e ↔ e.All fun n => ¬ n.ListsRangeTo Expr.PrintsSwitch) := by
  obtain ⟨ts, hscans, hderives⟩ := parse_strict_iff_derives.mp h
  have hprintable := hderives.printable (Cursor.isName_of_scans hscans)
  obtain ⟨us, husscans, hus⟩ := Cursor.scans_of_spells (spells_source hprintable) (.start .origin)
  have hne := husscans.kind_ne
  obtain ⟨stop, htokens, hstop⟩ := husscans
  have hparse : ∀ e', ((Cursor.ofText e.source).parse { path, limit }).1 = .ok e' ↔
      read? limit .initial (us ++ [stop]) = some e' := by
    intro e'
    rw [parse_strict_iff, show (Cursor.ofText e.source).tokens = _ from htokens]
    simp
  have hmoved := read?_relocate (fun _ => .origin) limit .initial (us ++ [stop])
  have hbare : read? limit .initial (e.tokens ++ [stop.bare]) =
      (read? limit .initial (us ++ [stop])).map Expr.bare := by
    rw [← hus, ← List.map_singleton, ← List.map_append]
    exact hmoved
  have hnebare : ∀ t ∈ e.tokens, t.kind ≠ .endOfInput := by
    rw [← hus]
    exact List.forall_mem_map.mpr hne
  have hread := Grammar.read?_tokens hderives (show stop.bare.kind = _ from hstop) hnebare
  refine ⟨fun e' he' => ?_, fun hkept => ?_, Expr.allKept_iff hprintable⟩
  · rw [(hparse e').mp he'] at hbare
    have hkept : Grammar.AllKept e := Classical.byContradiction fun hlists => by
      rw [hread.2 hlists] at hbare
      cases hbare
    rw [hread.1 hkept] at hbare
    have heq : e'.bare = e.bare := (Option.some.inj hbare).symm
    exact ⟨heq, Expr.same_of_bare_eq heq (hprintable.imp fun _ => Expr.Printable.selfSame), hkept⟩
  · rw [hread.1 hkept] at hbare
    obtain ⟨e', he', -⟩ := Option.map_eq_some_iff.mp hbare.symm
    exact ⟨e', (hparse e').mpr he'⟩

/-- **A strict parse reads its own tree back**, unless a subscript lists a range up to a switch. The
    second tree is printed like the first. -/
theorem parseStrict_source_iff {text : String} {e : Expr} (h : parseStrict text = .ok e) :
    (∃ e', parseStrict e.source = .ok e' ∧ e.same e' = true ∧ e'.source = e.source) ↔
      e.All fun n => ¬ n.ListsRangeTo Expr.PrintsSwitch := by
  obtain ⟨hsound, hcomplete, hkept⟩ := parse_source h
  rw [← hkept]
  constructor
  · rintro ⟨e', he', -⟩
    exact (hsound e' he').2.2
  · intro hall
    obtain ⟨e', he'⟩ := hcomplete hall
    obtain ⟨hbare, hsame, -⟩ := hsound e' he'
    refine ⟨e', he', hsame, ?_⟩
    calc e'.source = e'.bare.source := (Expr.source_relocate _ e').symm
      _ = e.bare.source := by rw [hbare]
      _ = e.source := Expr.source_relocate _ e

theorem parseStrict_source_dropped :
    ∃ e, parseStrict "x[[a, b]]" = .ok e ∧
      ∃ e', parseStrict e.source = .ok e' ∧ e.same e' = true ∧ e'.source = e.source := by
  have h : parseStrict "x[[a, b]]" = .ok (.subscript (.var "x" ⟨1, 1⟩)
      (.array [.var "a" ⟨1, 4⟩, .var "b" ⟨1, 7⟩] ⟨1, 3⟩) ⟨1, 2⟩) :=
    parseStrict_eq_ok_iff.mpr ⟨_, Cursor.tokens_of_scanWithin 9 rfl, rfl⟩
  have hvar : ∀ x loc, (Expr.var x loc).All fun n => ¬ n.ListsRangeTo Expr.PrintsSwitch :=
    fun x loc => Expr.all_var.mpr id
  refine ⟨_, h, (parseStrict_source_iff h).mpr (Expr.all_subscript.mpr ⟨?_, hvar _ _, ?_⟩)⟩
  · rintro ⟨-, e, he, hrange⟩
    rcases List.mem_pair.mp he with rfl | rfl <;> cases hrange
  · exact Expr.all_array.mpr ⟨id, List.forall_mem_cons.mpr
      ⟨hvar _ _, List.forall_mem_singleton.mpr (hvar _ _)⟩⟩

/-- The brackets that are dropped here had made the difference. -/
theorem not_all_parseStrict_source : ¬ ∀ text e, parseStrict text = .ok e →
    ∃ e', parseStrict e.source = .ok e' ∧ e.same e' = true ∧ e'.source = e.source := by
  intro hall
  have h : parseStrict "x[[a..\x7b\x7b\x7d\x7d, b]]" = .ok (.subscript (.var "x" ⟨1, 1⟩) (.array
      [.binary .boundedRange (.var "a" ⟨1, 4⟩) (.switch [] ⟨1, 7⟩) ⟨1, 5⟩, .var "b" ⟨1, 13⟩]
      ⟨1, 3⟩) ⟨1, 2⟩) :=
    parseStrict_eq_ok_iff.mpr ⟨_, Cursor.tokens_of_scanWithin 12 rfl, rfl⟩
  obtain ⟨e', he', -⟩ := hall _ _ h
  have hkept := ((parse_source h).1 e' he').2.2
  exact hkept.root ⟨Nat.le_refl 2, _, List.mem_cons_self, rfl⟩

/-- **How far a tree can be read back.** Under the limit that it was read under, what is printed is
    read as an equal tree just if no subscript lists a range up to a switch; it is refused just if
    one does; and it is never read as another tree. -/
theorem parse_source_iff {text : String} {path : Option String} {limit : Option Nat} {e : Expr}
    (h : ((Cursor.ofText text).parse { path, limit }).1 = .ok e) :
    ((∃ e', ((Cursor.ofText e.source).parse { path, limit }).1 = .ok e' ∧ e.same e' = true) ↔
      e.All fun n => ¬ n.ListsRangeTo Expr.PrintsSwitch) ∧
    ((∃ error, ((Cursor.ofText e.source).parse { path, limit }).1 = .error error) ↔
      ¬ e.All fun n => ¬ n.ListsRangeTo Expr.PrintsSwitch) ∧
    ∀ e', ((Cursor.ofText e.source).parse { path, limit }).1 = .ok e' → e.same e' = true := by
  obtain ⟨hsound, hcomplete, hkept⟩ := parse_source h
  rw [← hkept]
  refine ⟨⟨?_, fun hall => ?_⟩, ⟨?_, fun hlists => ?_⟩, fun e' he' => (hsound e' he').2.1⟩
  · rintro ⟨e', he', -⟩
    exact (hsound e' he').2.2
  · obtain ⟨e', he'⟩ := hcomplete hall
    exact ⟨e', he', (hsound e' he').2.1⟩
  · rintro ⟨error, herror⟩ hall
    obtain ⟨e', he'⟩ := hcomplete hall
    cases herror.symm.trans he'
  · cases hparse : ((Cursor.ofText e.source).parse { path, limit }).1 with
    | error error => exact ⟨error, rfl⟩
    | ok e' => exact absurd (hsound e' hparse).2.2 hlists

theorem parse_source_refused :
    ∃ e, ((Cursor.ofText "x[[a..\x7b\x7b\x7d\x7d, b]]").parse { limit := some 3 }).1 = .ok e ∧
      ∃ error, ((Cursor.ofText e.source).parse { limit := some 3 }).1 = .error error := by
  have h : ((Cursor.ofText "x[[a..\x7b\x7b\x7d\x7d, b]]").parse { limit := some 3 }).1 =
      .ok (.subscript (.var "x" ⟨1, 1⟩) (.array
        [.binary .boundedRange (.var "a" ⟨1, 4⟩) (.switch [] ⟨1, 7⟩) ⟨1, 5⟩, .var "b" ⟨1, 13⟩]
        ⟨1, 3⟩) ⟨1, 2⟩) :=
    parse_strict_iff.mpr ⟨_, Cursor.tokens_of_scanWithin 12 rfl, rfl⟩
  refine ⟨_, h, (parse_source_iff h).2.1.mpr fun hall => hall.root ?_⟩
  exact ⟨Nat.le_refl 2, _, List.mem_cons_self, ['}', '}'], rfl⟩

end EL
