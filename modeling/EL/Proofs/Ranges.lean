import EL.Proofs.Branches
import EL.Proofs.Brackets

/-!
# Ranges in arrays and in subscripts

The elements of an array can be the indices of a subscript, and a range between two bounds is an item
of either. But behind the dots of a range, a subscript has to tell by one token if there is an upper
bound at all, and a switch is not among what it looks for. So **the elements of an array are indices,
unless one of them is a range up to a switch** (`parseStrict_boundedRange`): its first token is
refused, where only the next index or the end of the subscript is expected.
-/

set_option autoImplicit false

namespace EL

open EL.Parser

namespace Grammar

section
variable {π : Policy} {limit : Option Nat} {b : Nat} {ts us : List Token} {k : Kind} {e : Expr}
  {es : List Expr}

/-! ## Elements as indices -/

theorem Derives.exists_item {s : Shape} (h : Derives π limit b (.items s es) ts k) (he : e ∈ es) :
    ∃ us k', Derives π limit b (.item s e) us k' := by
  induction es generalizing ts k with
  | nil => cases he
  | cons d es ih =>
    cases h with
    | lastItem hi =>
      obtain rfl := List.mem_singleton.mp he
      exact ⟨_, _, hi⟩
    | moreItems hi _ hs =>
      rcases List.mem_cons.mp he with rfl | he
      · exact ⟨_, _, hi⟩
      · exact ih hs he

/-- An upper bound can be one in a subscript if it does not begin with a switch. -/
theorem Derives.beginsUpper {lo hi : Expr} {loc : Location}
    (h : Derives .longest limit b (.item .array (.binary .boundedRange lo hi loc)) ts k)
    (hnot : ¬ hi.OpensSwitch) : Policy.longest.beginsUpper (ahead hi.tokens .endOfInput) := by
  cases h with
  | bare he => exact absurd trivial he.outline.2
  | bounded _ _ hh =>
    obtain ⟨t, us, rfl, ht⟩ := hh.begins
    have hahead : ahead hi.tokens .endOfInput = t.kind := hh.outline.1 _ .endOfInput
    rw [Expr.OpensSwitch, hahead] at hnot
    rw [hahead]
    rcases TokenSet.mem_union.mp ht with hs | hs
    · exact hs
    · exact absurd (TokenSet.mem_singleton.mp hs) hnot

theorem Derives.listing_index_of_not (h : Derives .longest limit b (.listing .array es) ts k)
    (hes : ∀ e ∈ es, ¬ e.RangeTo Expr.OpensSwitch) (x : Expr) (k' : Kind) :
    Derives .longest limit b (.listing (.index x) es) ts k' := by
  refine h.listing_index k' x fun lo hi loc hmem => ?_
  cases h with
  | noItems => cases hmem
  | someItems _ hs =>
    obtain ⟨us, k₁, hitem⟩ := hs.exists_item hmem
    exact hitem.beginsUpper (hes _ hmem)

/-- **Up to the dots of the first range up to a switch, the elements of an array are indices.** With
    the closing bracket behind the dots, they are all there are. -/
theorem Derives.exists_range_to_switch (x : Expr)
    (h : Derives .longest limit b (.items .array es) ts k)
    (hes : ∃ e ∈ es, e.RangeTo Expr.OpensSwitch) :
    ∃ us r t vs is, ts = us ++ r :: t :: vs ∧ r.kind = .range ∧ t.kind = .openSwitch ∧
      ∀ k', Derives .longest limit b (.items (.index x) is) (us ++ [r, .symbol .closeBracket]) k' := by
  induction es generalizing ts k with
  | nil =>
    obtain ⟨e, he, -⟩ := hes
    cases he
  | cons e es ih =>
    by_cases he : e.RangeTo Expr.OpensSwitch
    · -- The element is the first such range, and it is cut off behind its dots.
      obtain ⟨us, vs, k₁, rfl, hitem⟩ : ∃ us vs k₁, ts = us ++ vs ∧
          Derives .longest limit b (.item .array e) us k₁ := by
        cases h with
        | lastItem hi => exact ⟨_, _, _, rfl, hi⟩
        | moreItems hi => exact ⟨_, _, _, rfl, hi⟩
      cases hitem with
      | bare hbare => exact absurd he.isRange hbare.outline.2
      | @bounded _ ls hs r _ lo hi hl hr hh =>
        obtain ⟨t, hs, rfl, -⟩ := hh.begins
        have ht : t.kind = .openSwitch := (hh.outline.1 .endOfInput .endOfInput).symm.trans he
        refine ⟨ls, r, t, hs ++ vs, [.unary .leftBoundedRange lo r.location], by simp, hr, ht,
          fun k' => ?_⟩
        have hlast := Derives.lastItem (c := .symbol .closeBracket) (k := k')
          (.leftBounded (x := x) hl hr) rfl
        rwa [List.append_assoc] at hlast
    · obtain ⟨e', hmem, hopen⟩ := hes
      rcases List.mem_cons.mp hmem with rfl | hmem
      · exact absurd hopen he
      · cases h with
        | lastItem => cases hmem
        | @moreItems _ _ ls rest c _ _ _ hi hc hs =>
          have hindex : Derives .longest limit b (.item (.index x) e) ls .comma := by
            refine hi.item_index x fun lo hi' loc heq => ?_
            subst heq
            exact hi.beginsUpper he
          obtain ⟨us, r, t, vs, is, rfl, hr, ht, hfront⟩ := ih hs ⟨e', hmem, hopen⟩
          refine ⟨ls ++ c :: us, r, t, vs, e :: is, by simp, hr, ht, fun k' => ?_⟩
          rw [List.append_assoc, List.cons_append]
          exact .moreItems hindex hc (hfront k')

end

end Grammar

/-! ## Behind the dots -/

namespace Parser

section
variable {limit : Option Nat} {s s' : State} {t : Token} {c : Chain} {σ : List Frame}

/-- Behind the dots of a range there is a bound, or in a subscript perhaps none. -/
def Goal.BehindDots : Goal → Prop
  | .expression | .upperBound _ _ _ => True
  | _ => False

theorem beginExpression_refuse (ht : t.kind ∉ TokenSet.operand) :
    beginExpression limit c σ t = need .operand t false := by
  have hparen : t.kind ≠ .openParen := by
    intro hk
    rw [hk] at ht
    exact ht (by decide)
  rw [beginExpression, if_neg hparen, beginOperand, beginOperand?_eq_none_iff.mpr ht]

theorem beginExpression_range (ht : t.kind = .range) :
    beginExpression limit c σ t = need .operand t false :=
  beginExpression_refuse (by rw [ht]; decide)

theorem beginItem_range {l : Listing} (ht : t.kind = .range)
    (h : beginItem limit l c σ t = .shift s') : s'.goal.BehindDots := by
  unfold beginItem at h
  split at h
  · cases h
    trivial
  · rw [beginExpression_range ht] at h
    cases h

theorem separate_range {l : Listing} (ht : t.kind = .range) :
    separate l c σ t = need {.comma, l.closer} t true := by
  have hcloser : t.kind ≠ l.closer := by
    rw [ht]
    rcases l.closer_cases with h | h <;> rw [h] <;> decide
  rw [separate, if_neg (by simp [ht]), if_neg hcloser]

theorem leave_range (ht : t.kind = .range) : ∀ (σ : List Frame) {e : Expr} {s' : State},
    leave t e σ = .shift s' → s'.goal.BehindDots
  | [], _, _, h => by cases h
  | ⟨.closedGroup, outer⟩ :: σ, _, _, h => by
    rw [leave, if_neg (by simp [ht])] at h
    exact leave_range ht σ h
  | ⟨.group _ _, _⟩ :: _, _, _, h => by
    rw [leave, if_neg (by simp [ht])] at h
    cases h
  | ⟨.item _ _, _⟩ :: _, _, _, h => by
    rw [leave] at h
    unfold endItem at h
    split at h
    · cases h
      trivial
    · cases h
      trivial
    · rw [separate_range ht] at h
      cases h
  | ⟨.value _ _, _⟩ :: _, _, _, h => by
    rw [leave, endValue_refuse (by simp [ht]) (by simp [ht])] at h
    cases h

/-- **Only a bound can be read next where the dots of a range were shifted.** -/
theorem behindDots_of_shift (ht : t.kind = .range) (h : step limit s t = .shift s') :
    s'.goal.BehindDots := by
  obtain ⟨goal, c, σ⟩ := s
  have hop : BinaryOp.ofKind? t.kind = none := by rw [ht]; rfl
  have hkey (m : Entries) : readKey m c σ t = need {.name, .string} t true :=
    readKey_refuse (by simp [ht]) (by simp [ht])
  cases goal with
  | expression =>
    rw [step, beginExpression_range ht] at h
    cases h
  | operand =>
    rw [← step_expression (by simp [ht]), step, beginExpression_range ht] at h
    cases h
  | afterSimple e =>
    have hbracket : t.kind ≠ .openBracket := by simp [ht]
    simp only [step, afterSimple, if_neg hbracket, afterOperand, hop] at h
    exact leave_range ht σ h
  | afterOperand e =>
    rw [step_leave hop] at h
    exact leave_range ht σ h
  | firstItem l =>
    have hcloser : t.kind ≠ l.closer := by
      rw [ht]
      rcases l.closer_cases with hl | hl <;> rw [hl] <;> decide
    have hsimple : t.kind ∉ TokenSet.simpleTerm := by rw [ht]; decide
    simp only [step, if_neg hcloser, if_neg hsimple] at h
    split at h
    · cases h
    · exact beginItem_range ht h
  | item l => exact beginItem_range ht h
  | upperBound l e loc =>
    have hsimple : t.kind ∉ TokenSet.simpleTerm := by rw [ht]; decide
    simp only [step, if_neg hsimple, separate_range ht] at h
    cases h
  | firstKey m =>
    simp only [step, hkey] at h
    rw [if_neg (by simp [ht])] at h
    cases h
  | key m =>
    simp only [step, hkey] at h
    cases h
  | colon m key =>
    simp only [step] at h
    rw [if_neg (by simp [ht])] at h
    cases h

/-- Where the closing bracket could follow the dots of a range, a switch cannot. -/
theorem refuse_of_closeBracket {r d : Token} {rest : List Token} {e : Expr}
    (hr : r.kind = .range) (hd : d.kind = .closeBracket) (ht : t.kind = .openSwitch)
    (h : read? limit s (r :: d :: rest) = some e) :
    ∃ s', step limit s r = .shift s' ∧
      step limit s' t = .refuse (.expected {.comma, .closeBracket} t) true := by
  rcases read?_cons_eq_some h with ⟨s', hs, hread⟩ | ⟨-, hk⟩
  case inr =>
    rw [hr] at hk
    cases hk
  refine ⟨s', hs, ?_⟩
  have hdots := behindDots_of_shift hr hs
  obtain ⟨goal, c, σ⟩ := s'
  cases goal with
  | expression =>
    -- Without the choice of leaving the bound out, the bracket would have been refused.
    have hstep : step limit ⟨.expression, c, σ⟩ d = need .operand d false :=
      beginExpression_refuse (by rw [hd]; decide)
    rw [read?_refuse hstep] at hread
    cases hread
  | upperBound l lo loc =>
    have hsimple {u : Token} (hu : u.kind = .closeBracket ∨ u.kind = .openSwitch) :
        u.kind ∉ TokenSet.simpleTerm := by
      rcases hu with hu | hu <;> rw [hu] <;> decide
    have hcloser : l.closer = .closeBracket := by
      by_contra hne
      have hstep : step limit ⟨.upperBound l lo loc, c, σ⟩ d = need {.comma, l.closer} d true := by
        simp only [step, if_neg (hsimple (.inl hd))]
        rw [separate, if_neg (by simp [hd]), if_neg (by rw [hd]; exact fun hl => hne hl.symm)]
        rfl
      rw [read?_refuse hstep] at hread
      cases hread
    simp only [step, if_neg (hsimple (.inr ht))]
    have hadd : (l.add (.unary .leftBoundedRange lo loc)).closer = .closeBracket := hcloser
    rw [separate, if_neg (by simp [ht]), hadd, if_neg (by simp [ht])]
    rfl
  | operand | afterSimple | afterOperand | firstItem | item | firstKey | key | colon => cases hdots

end

end Parser

/-! ## Texts -/

/-- Two texts as the bounds of a range, each with the end of its line. -/
def rangeText (lower upper : String) : String := lower ++ "\n.." ++ upper ++ "\n"

section
variable {name items text : String} {o : Token} {ts us vs : List Token} {e : Expr} {es : List Expr}

/-- The tree of a text is printed with a switch first if the text begins with one. -/
theorem opensSwitch_iff (h : parseStrict text = .ok e) : e.OpensSwitch ↔ BeginsWithSwitch text := by
  obtain ⟨ts, hscans, hd⟩ := parse_strict_iff_derives.mp h
  obtain ⟨t, us, rfl, -⟩ := hd.begins
  rw [beginsWithSwitch_iff hscans, Expr.OpensSwitch, hd.outline.1 _ .endOfInput, Grammar.ahead_cons]

theorem shows_rangeElement {lower upper : String} (hlower : (Cursor.ofText lower).Scans us)
    (hupper : (Cursor.ofText upper).Scans vs) :
    Shows ("[" ++ rangeText lower upper ++ "]").toList
      (.symbol .openBracket :: (us ++ .symbol .range :: (vs ++ [.symbol .closeBracket]))) := by
  have hrange := shows_line hlower (shows_range (shows_line hupper shows_closeBracket))
  exact shows_brackets (by simpa [rangeText] using hrange)

/-- Where a closing bracket could stand, the tokens of a switch are refused. -/
theorem parseStrict_of_closeBracket {r t : Token}
    (h : (Cursor.ofText text).Scans (us ++ r :: t :: vs)) (hr : r.kind = .range)
    (ht : t.kind = .openSwitch)
    (hread : read? none .initial (us ++ [r, .symbol .closeBracket, .symbol .endOfInput]) = some e) :
    parseStrict text = .error (.expected {.comma, .closeBracket} t) := by
  obtain ⟨hkinds, -⟩ := List.forall_mem_append.mp h.kind_ne
  obtain ⟨s, hshifts, hread'⟩ := exists_shifts?_of_read? hkinds hread
  obtain ⟨s', hs', hrefuse⟩ := refuse_of_closeBracket hr rfl ht hread'
  have hpassage : shifts? none .initial (us ++ [r]) = some s' := by
    rw [shifts?_append, hshifts, Option.bind_some, shifts?_cons hs']
    rfl
  obtain ⟨stop, htokens, -⟩ := h
  have hsplit : us ++ r :: t :: vs ++ [stop] = (us ++ [r]) ++ t :: (vs ++ [stop]) := by simp
  rw [hsplit] at htokens
  obtain ⟨here, after, hreads, hn⟩ := Cursor.exists_reads_of_tokens htokens
  have hrefuses : Refuses none .initial (Cursor.ofText text) _ true (us ++ [r]) here t after :=
    ⟨hreads, hn, s', hpassage, hrefuse⟩
  rw [parseStrict, hrefuses.parse]
  rfl

/-- The text is refused at a switch, where a list could go on or end. -/
def RefusesSwitch (text : String) : Prop :=
  ∃ t, t.kind = .openSwitch ∧ parseStrict text = .error (.expected {.comma, .closeBracket} t)

/-- **Behind the dots of its first range up to a switch, a subscript is refused.** -/
theorem refusesSwitch_of_rangeTo (hname : Lexeme.IsName name.toList)
    (h : Shows ("[" ++ items ++ "]").toList (o :: ts)) (ho : o.kind = .openBracket)
    (hd : Grammar.Derives .longest none 0 (.items .array es) ts .endOfInput)
    (hes : ∃ e ∈ es, e.RangeTo Expr.OpensSwitch) :
    RefusesSwitch (name ++ "[" ++ items ++ "]") := by
  obtain ⟨us, r, t, vs, is, rfl, hr, ht, hindices⟩ := hd.exists_range_to_switch (.var name .origin) hes
  -- With the closing bracket in the place of the switch, the subscript would be read.
  have hcut := Grammar.derives_subscript (v := .ofName name) rfl ho (.someItems nofun (hindices _))
  have hread := hcut.read? (show (Token.symbol .endOfInput).kind = .endOfInput from rfl)
  have hshows : Shows (name ++ "[" ++ items ++ "]").toList
      ((.ofName name :: o :: us) ++ r :: t :: vs) := shows_subscript hname h
  obtain ⟨hs, rest, hscans, hhs, hrest⟩ := exists_scans_of_shows hshows
  obtain ⟨r', rest, rfl, hr', hrest⟩ := List.map_eq_cons_iff.mp hrest
  obtain ⟨t', rest, rfl, ht', -⟩ := List.map_eq_cons_iff.mp hrest
  have hbare : (hs ++ [r', .symbol .closeBracket, .symbol .endOfInput]).map Token.bare =
      ((.ofName name :: o :: (us ++ [r, .symbol .closeBracket])) ++
        [Token.symbol .endOfInput]).map Token.bare := by
    simp [hhs, hr']
  obtain ⟨e', he'⟩ := exists_read?_of_bare hbare hread
  have hswitch : t'.kind = .openSwitch := (congrArg Token.kind ht').trans ht
  exact ⟨t', hswitch,
    parseStrict_of_closeBracket hscans ((congrArg Token.kind hr').trans hr) hswitch he'⟩

/-- **What is an array between brackets is a subscript behind a name**, or it is refused, by what its
    elements are. -/
theorem readsAs_or_refused (hname : Lexeme.IsName name.toList)
    (h : Shows ("[" ++ items ++ "]").toList (o :: ts)) (ho : o.kind = .openBracket)
    (hd : Grammar.Derives .longest none 0 (.listing .array es) ts .endOfInput) :
    ((∀ e ∈ es, ¬ e.RangeTo Expr.OpensSwitch) → ReadsAs (name ++ "[" ++ items ++ "]")
      (.subscript (.var name .origin) (.collect es .origin) .origin)) ∧
    ((∃ e ∈ es, e.RangeTo Expr.OpensSwitch) → RefusesSwitch (name ++ "[" ++ items ++ "]")) := by
  constructor
  · intro hes
    exact readsAs_subscript hname h ho (hd.listing_index_of_not hes _ _)
  · intro hes
    cases hd with
    | noItems =>
      obtain ⟨e, he, -⟩ := hes
      cases he
    | someItems _ hitems => exact refusesSwitch_of_rangeTo hname h ho hitems hes

/-- The tokens of a text that is read as an array, and what derives its elements. -/
theorem exists_listing_of_parse {loc : Location} (h : parseStrict text = .ok (.array es loc)) :
    ∃ o ts, Shows text.toList (o :: ts) ∧ o.kind = .openBracket ∧
      Grammar.Derives .longest none 0 (.listing .array es) ts .endOfInput := by
  obtain ⟨us, hscans, hd⟩ := parse_strict_iff_derives.mp h
  obtain ⟨o, ts, rfl, hlisting⟩ := hd.listing_of_expression
  have ho : Kind.openBracket = o.kind := hd.outline.1 .endOfInput .endOfInput
  exact ⟨o, ts, shows_of_scans hscans, ho.symm, hlisting⟩

theorem derives_rangeElement {lo hi : Expr}
    (hlo : Grammar.Derives .longest none 0 (.expression lo) us .endOfInput)
    (hhi : Grammar.Derives .longest none 0 (.expression hi) vs .endOfInput) :
    Grammar.Derives .longest none 0 (.listing .array [.binary .boundedRange lo hi .origin])
      (us ++ .symbol .range :: (vs ++ [.symbol .closeBracket])) .endOfInput := by
  have hlower := hlo.within (k := .range) ⟨rfl, by decide⟩ 1
  have hupper := hhi.within (Grammar.follows_closer .array) 1
  have hitem := Grammar.Derives.bounded (t := .symbol .range) hlower rfl hupper
  have hlast := Grammar.Derives.lastItem (c := .symbol .closeBracket) (k := .endOfInput) hitem rfl
  rw [List.append_assoc, List.cons_append] at hlast
  exact .someItems nofun hlast

end

/-- **The elements of an array are the indices of a subscript, unless one is a range up to a switch.**
    A range between the texts of two expressions is read as the element of an array, and as the index
    of a subscript too if the second text does not begin with a switch. Of any text that is an array
    between brackets, the elements are the indices if none of them is a range up to a switch. In all
    other cases the switch is refused, where a comma or the closing bracket is expected. -/
theorem parseStrict_boundedRange {name : String} (hname : Lexeme.IsName name.toList) :
    (∀ lower upper e f, parseStrict lower = .ok e → parseStrict upper = .ok f →
      ReadsAs ("[" ++ rangeText lower upper ++ "]")
        (.array [.binary .boundedRange e f .origin] .origin) ∧
      (¬ BeginsWithSwitch upper → ReadsAs (name ++ "[" ++ rangeText lower upper ++ "]")
        (.subscript (.var name .origin) (.binary .boundedRange e f .origin) .origin)) ∧
      (BeginsWithSwitch upper → RefusesSwitch (name ++ "[" ++ rangeText lower upper ++ "]"))) ∧
    ∀ items es loc, parseStrict ("[" ++ items ++ "]") = .ok (.array es loc) →
      ((∀ e ∈ es, ¬ e.RangeTo Expr.OpensSwitch) → ReadsAs (name ++ "[" ++ items ++ "]")
        (.subscript (.var name .origin) (.collect es .origin) .origin)) ∧
      ((∃ e ∈ es, e.RangeTo Expr.OpensSwitch) → RefusesSwitch (name ++ "[" ++ items ++ "]")) := by
  constructor
  · intro lower upper e f hlower hupper
    obtain ⟨us, hus, he⟩ := parse_strict_iff_derives.mp hlower
    obtain ⟨vs, hvs, hf⟩ := parse_strict_iff_derives.mp hupper
    have hshows := shows_rangeElement hus hvs
    have hlisting := derives_rangeElement he hf
    have harray := Grammar.Derives.expression_of_simple
      (.array (o := .symbol .openBracket) rfl hlisting) nofun (show Kind.openBracket ≠ _ by decide)
    obtain ⟨hread, hrefused⟩ := readsAs_or_refused hname hshows rfl hlisting
    refine ⟨exists_parse_of_shows hshows harray, fun hnot => hread ?_, fun hopens => hrefused ?_⟩
    · exact List.forall_mem_singleton.mpr fun hopens => hnot ((opensSwitch_iff hupper).mp hopens)
    · exact ⟨_, List.mem_singleton_self _, (opensSwitch_iff hupper).mpr hopens⟩
  · intro items es loc h
    obtain ⟨o, ts, hshows, ho, hlisting⟩ := exists_listing_of_parse h
    exact readsAs_or_refused hname hshows ho hlisting

/-- In `x[a..b]` the range is an index, and in `x[a..{{}}]` the switch is refused. -/
theorem parseStrict_boundedRange_switch :
    ReadsAs ("x" ++ "[" ++ rangeText "a" "b" ++ "]") (.subscript (.var "x" .origin)
      (.binary .boundedRange (.var "a" ⟨1, 1⟩) (.var "b" ⟨1, 1⟩) .origin) .origin) ∧
    ReadsAs ("[" ++ rangeText "a" "\x7b\x7b\x7d\x7d" ++ "]")
      (.array [.binary .boundedRange (.var "a" ⟨1, 1⟩) (.switch [] ⟨1, 1⟩) .origin] .origin) ∧
    RefusesSwitch ("x" ++ "[" ++ rangeText "a" "\x7b\x7b\x7d\x7d" ++ "]") := by
  have hname : Lexeme.IsName "x".toList := ⟨'x', [], rfl, rfl, List.forall_mem_nil _, rfl⟩
  have ha : parseStrict "a" = .ok (.var "a" ⟨1, 1⟩) :=
    parseStrict_eq_ok_iff.mpr ⟨_, Cursor.tokens_of_scanWithin 2 rfl, rfl⟩
  have hb : parseStrict "b" = .ok (.var "b" ⟨1, 1⟩) :=
    parseStrict_eq_ok_iff.mpr ⟨_, Cursor.tokens_of_scanWithin 2 rfl, rfl⟩
  have hswitch : parseStrict "\x7b\x7b\x7d\x7d" = .ok (.switch [] ⟨1, 1⟩) :=
    parseStrict_eq_ok_iff.mpr ⟨_, Cursor.tokens_of_scanWithin 3 rfl, rfl⟩
  have hnot : ¬ BeginsWithSwitch "b" := by
    rintro ⟨t, ht, hk⟩
    cases ht
    cases hk
  obtain ⟨hranges, -⟩ := parseStrict_boundedRange hname
  obtain ⟨-, hindex, -⟩ := hranges _ _ _ _ ha hb
  obtain ⟨helement, -, hrefused⟩ := hranges _ _ _ _ ha hswitch
  exact ⟨hindex hnot, helement, hrefused ⟨_, rfl, rfl⟩⟩

/-- Not every range that is an element of an array is an index of a subscript. -/
theorem not_all_parseStrict_boundedRange :
    ¬ ∀ lower upper e f, parseStrict lower = .ok e → parseStrict upper = .ok f →
      ReadsAs ("x" ++ "[" ++ rangeText lower upper ++ "]")
        (.subscript (.var "x" .origin) (.binary .boundedRange e f .origin) .origin) := by
  intro h
  have ha : parseStrict "a" = .ok (.var "a" ⟨1, 1⟩) :=
    parseStrict_eq_ok_iff.mpr ⟨_, Cursor.tokens_of_scanWithin 2 rfl, rfl⟩
  have hswitch : parseStrict "\x7b\x7b\x7d\x7d" = .ok (.switch [] ⟨1, 1⟩) :=
    parseStrict_eq_ok_iff.mpr ⟨_, Cursor.tokens_of_scanWithin 3 rfl, rfl⟩
  obtain ⟨x, hx, -⟩ := h _ _ _ _ ha hswitch
  obtain ⟨ts, hts, hread⟩ := parseStrict_eq_ok_iff.mp hx
  rw [Cursor.tokens_of_scanWithin (c := Cursor.ofText _) 8 rfl] at hts
  cases hts
  cases hread

end EL
