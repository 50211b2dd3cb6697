import EL.Proofs.NodeLocations
import EL.Proofs.Variables

/-!
# The variables of a text

A name token is a key or a variable, and **the token behind it tells which**: only the keys of maps
have a colon behind them. So the variables of a tree can be read off the tokens it was read from.

They are not quite the names that are no keys. Of the entries of a map that have one key only the
last is kept, and the names in the others are read but do not occur in the tree. Where the keys of
each map are different, no entry is lost, and the variables are those names (`variables_exact`).
-/

set_option autoImplicit false

namespace EL

namespace Token

/-- Do these tokens begin with a colon? -/
def beginsWithColon : List Token → Bool
  | [] => false
  | t :: _ => t.kind = .colon

/-- The texts of the name tokens that are no keys. -/
def names : List Token → List String
  | [] => []
  | t :: ts => if t.kind = .name ∧ beginsWithColon ts = false then t.text :: names ts else names ts

/-- The key that a token is in front of these. -/
def keyBefore (t : Token) (ts : List Token) : List String :=
  if beginsWithColon ts then t.key?.toList else []

/-- The keys of each map that these tokens close. `σ` has the keys of those that are open, the
    innermost first. -/
def mapKeys (σ : List (List String)) : List Token → List (List String)
  | [] => []
  | t :: ts =>
    if t.kind = .openBrace then mapKeys ([] :: σ) ts
    else if t.kind = .closeBrace then σ.head?.toList ++ mapKeys σ.tail ts
    else mapKeys (σ.modifyHead (t.keyBefore ts ++ ·)) ts

section
variable {t n c : Token} {ts us vs : List Token} {key : String} {σ : List (List String)}
  {keys : List String}

theorem beginsWithColon_append (hts : beginsWithColon ts = false)
    (hus : beginsWithColon us = false) : beginsWithColon (ts ++ us) = false := by
  cases ts with
  | nil => exact hus
  | cons => exact hts

/-- A token that names nothing and opens and closes no map. -/
def Silent (t : Token) : Prop := t.kind ∉ ({.name, .openBrace, .closeBrace, .colon} : TokenSet)

theorem silent_iff : t.Silent ↔
    t.kind ≠ .name ∧ t.kind ≠ .openBrace ∧ t.kind ≠ .closeBrace ∧ t.kind ≠ .colon := by
  simp [Silent]

theorem silent_of_kind {k : Kind} (h : t.kind = k)
    (hk : k ∉ ({.name, .openBrace, .closeBrace, .colon} : TokenSet)) : t.Silent := by
  rwa [Silent, h]

theorem silent_of_closer {s : Parser.Shape} (h : t.kind = s.closer) : t.Silent := by
  rcases s.closer_eq with hs | hs <;> exact silent_of_kind (h.trans hs) (by decide)

theorem silent_of_binary {op : BinaryOp} (h : BinaryOp.ofKind? t.kind = some op) : t.Silent := by
  refine silent_iff.mpr ⟨?_, ?_, ?_, ?_⟩ <;> intro hk <;> rw [hk] at h <;> cases h

theorem silent_of_sign {op : UnaryOp} (h : UnaryOp.ofKind? t.kind = some op) : t.Silent := by
  refine silent_iff.mpr ⟨?_, ?_, ?_, ?_⟩ <;> intro hk <;> rw [hk] at h <;> cases h

theorem beginsWithColon_cons (h : t.kind ≠ .colon) : beginsWithColon (t :: ts) = false :=
  decide_eq_false h

theorem Silent.beginsWithColon (h : t.Silent) : beginsWithColon (t :: ts) = false :=
  beginsWithColon_cons (silent_iff.mp h).2.2.2

theorem mem_names {x : String} : x ∈ names ts → ∃ t ∈ ts, t.kind = .name ∧ t.text = x := by
  induction ts with
  | nil => exact fun h => nomatch h
  | cons t ts ih =>
    intro hx
    rw [names] at hx
    split at hx
    · rename_i hname
      rcases List.mem_cons.mp hx with rfl | hx
      · exact ⟨t, List.mem_cons_self, hname.1, rfl⟩
      · obtain ⟨u, hu, h⟩ := ih hx
        exact ⟨u, List.mem_cons_of_mem t hu, h⟩
    · obtain ⟨u, hu, h⟩ := ih hx
      exact ⟨u, List.mem_cons_of_mem t hu, h⟩

theorem names_cons_of_ne (h : t.kind ≠ .name) : names (t :: ts) = names ts :=
  if_neg fun hname => h hname.1

/-- The key of an entry is no variable. -/
theorem names_entry (hn : n.kind = .colon) : names (t :: n :: ts) = names ts := by
  rw [names, if_neg, names_cons_of_ne (by simp [hn])]
  simp [beginsWithColon, hn]

theorem mapKeys_openBrace (h : t.kind = .openBrace) :
    mapKeys σ (t :: ts) = mapKeys ([] :: σ) ts := if_pos h

theorem mapKeys_closeBrace (h : t.kind = .closeBrace) :
    mapKeys (keys :: σ) (t :: ts) = keys :: mapKeys σ ts := by
  rw [mapKeys, if_neg (by simp [h]), if_pos h]
  rfl

/-- A token that is no brace and no key leaves the maps as they are. -/
theorem mapKeys_cons (ho : t.kind ≠ .openBrace) (hc : t.kind ≠ .closeBrace)
    (hk : t.keyBefore ts = []) : mapKeys σ (t :: ts) = mapKeys σ ts := by
  have hid : σ.modifyHead ([] ++ ·) = σ := by cases σ <;> rfl
  rw [mapKeys, if_neg ho, if_neg hc, hk, hid]

/-- The key of an entry is one of the map that was opened last. -/
theorem mapKeys_entry (ht : t.key? = some key) (hn : n.kind = .colon) :
    mapKeys (keys :: σ) (t :: n :: ts) = mapKeys ((key :: keys) :: σ) ts := by
  have hkey : t.keyBefore (n :: ts) = [key] := by simp [keyBefore, beginsWithColon, hn, ht]
  have hcolon : n.keyBefore ts = [] := by simp [keyBefore, key?, hn]
  have hkind : t.kind ≠ .openBrace ∧ t.kind ≠ .closeBrace := by
    rcases Grammar.kind_of_key? ht with h | h <;> simp [h]
  rw [mapKeys, if_neg hkind.1, if_neg hkind.2, hkey,
    mapKeys_cons (by simp [hn]) (by simp [hn]) hcolon]
  rfl

/-! ## Tokens that close what they open -/

/-- In front of tokens that begin with no colon, these have such names and such maps. -/
def Holds (ts : List Token) (maps : List (List String)) (known : List String) : Prop :=
  ∀ vs, beginsWithColon vs = false → names (ts ++ vs) = known ++ names vs ∧
    ∀ σ, mapKeys σ (ts ++ vs) = maps ++ mapKeys σ vs

section
variable {maps maps' : List (List String)} {known known' : List String}

theorem Holds.append (h : Holds ts maps known) (h' : Holds us maps' known')
    (hus : beginsWithColon us = false) : Holds (ts ++ us) (maps ++ maps') (known ++ known') := by
  intro vs hvs
  obtain ⟨hnames, hmaps⟩ := h (us ++ vs) (beginsWithColon_append hus hvs)
  obtain ⟨hnames', hmaps'⟩ := h' vs hvs
  refine ⟨?_, fun σ => ?_⟩
  · rw [List.append_assoc, hnames, hnames', List.append_assoc]
  · rw [List.append_assoc, hmaps, hmaps', List.append_assoc]

theorem holds_nil : Holds [] [] [] := fun _ _ => ⟨rfl, fun _ => rfl⟩

/-- In front of no colon, no token is a key. -/
theorem keyBefore_eq_nil (h : beginsWithColon vs = false) : t.keyBefore vs = [] :=
  if_neg (by simp [h])

theorem holds_name (h : t.kind = .name) : Holds [t] [] [t.text] := by
  intro vs hvs
  refine ⟨if_pos ⟨h, hvs⟩, fun σ => ?_⟩
  exact mapKeys_cons (by simp [h]) (by simp [h]) (keyBefore_eq_nil hvs)

theorem holds_token (h : t.Silent) : Holds [t] [] [] := by
  intro vs hvs
  obtain ⟨hn, ho, hc, -⟩ := silent_iff.mp h
  exact ⟨names_cons_of_ne hn, fun _ => mapKeys_cons ho hc (keyBefore_eq_nil hvs)⟩

/-- The same of entries and the brace behind them: they close a map, and these are the keys that
    they add to it. -/
def HoldsEntries (ts : List Token) (maps : List (List String)) (keys known : List String) : Prop :=
  ∀ vs, beginsWithColon vs = false → names (ts ++ vs) = known ++ names vs ∧
    ∀ ks σ, mapKeys (ks :: σ) (ts ++ vs) = maps ++ (keys ++ ks) :: mapKeys σ vs

/-- An entry in front of what follows it. -/
theorem Holds.entry (h : Holds ts maps known) (ht : t.key? = some key) (hn : n.kind = .colon)
    (vs : List Token) (hvs : beginsWithColon vs = false) :
    names (t :: n :: ts ++ vs) = known ++ names vs ∧
      ∀ ks σ, mapKeys (ks :: σ) (t :: n :: ts ++ vs) = maps ++ mapKeys ((key :: ks) :: σ) vs := by
  obtain ⟨hnames, hmaps⟩ := h vs hvs
  rw [List.cons_append, List.cons_append]
  exact ⟨(names_entry hn).trans hnames, fun ks σ => (mapKeys_entry ht hn).trans (hmaps _)⟩

theorem Holds.lastEntry (h : Holds ts maps known) (ht : t.key? = some key) (hn : n.kind = .colon)
    (hc : c.kind = .closeBrace) : HoldsEntries (t :: n :: (ts ++ [c])) maps [key] known := by
  intro vs _
  obtain ⟨hnames, hmaps⟩ := h.entry ht hn (c :: vs) (beginsWithColon_cons (by simp [hc]))
  have hsplit : t :: n :: (ts ++ [c]) ++ vs = t :: n :: ts ++ c :: vs := by simp
  rw [hsplit]
  refine ⟨?_, fun ks σ => ?_⟩
  · rw [hnames, names_cons_of_ne (by simp [hc])]
  · rw [hmaps, mapKeys_closeBrace hc, List.singleton_append]

theorem HoldsEntries.cons (h' : HoldsEntries us maps' keys known') (h : Holds ts maps known)
    (ht : t.key? = some key) (hn : n.kind = .colon) (hc : c.kind = .comma)
    (hus : beginsWithColon us = false) :
    HoldsEntries (t :: n :: (ts ++ c :: us)) (maps ++ maps') (keys ++ [key]) (known ++ known') := by
  intro vs hvs
  obtain ⟨hnames, hmaps⟩ := h.entry ht hn (c :: (us ++ vs))
    (beginsWithColon_cons (by simp [hc]))
  obtain ⟨hnames', hmaps'⟩ := h' vs hvs
  have hskip : c.keyBefore (us ++ vs) = [] := keyBefore_eq_nil (beginsWithColon_append hus hvs)
  have hsplit : t :: n :: (ts ++ c :: us) ++ vs = t :: n :: ts ++ c :: (us ++ vs) := by simp
  rw [hsplit]
  refine ⟨?_, fun ks σ => ?_⟩
  · rw [hnames, names_cons_of_ne (by simp [hc]), hnames', List.append_assoc]
  · rw [hmaps, mapKeys_cons (by simp [hc]) (by simp [hc]) hskip, hmaps', List.append_assoc,
      List.append_assoc, List.singleton_append]

/-- A map is closed with its last entry. -/
theorem HoldsEntries.map (h : HoldsEntries ts maps keys known) (ht : t.kind = .openBrace) :
    Holds (t :: ts) (maps ++ [keys]) known := by
  intro vs hvs
  obtain ⟨hnames, hmaps⟩ := h vs hvs
  rw [List.cons_append, names_cons_of_ne (by simp [ht])]
  refine ⟨hnames, fun σ => ?_⟩
  rw [mapKeys_openBrace ht, hmaps, List.append_nil, List.append_assoc, List.singleton_append]

theorem holds_emptyMap (ht : t.kind = .openBrace) (hc : c.kind = .closeBrace) :
    Holds [t, c] [[]] [] := by
  intro vs _
  refine ⟨?_, fun σ => ?_⟩
  · exact (names_cons_of_ne (by simp [ht])).trans (names_cons_of_ne (by simp [hc]))
  · exact (mapKeys_openBrace ht).trans (mapKeys_closeBrace hc)

end

end

end Token

namespace Expr

open Token (Holds HoldsEntries beginsWithColon)

/-- What occurs is among the names that were read. Nothing is lost if no map has a key twice. -/
def Faithful (maps : List (List String)) (known occ : List String) : Prop :=
  occ ⊆ known ∧ ((∀ keys ∈ maps, keys.Nodup) → known ⊆ occ)

/-- These tokens are those of something that these names occur in. -/
def Shows (ts : List Token) (occ : List String) : Prop :=
  ∃ maps known, Holds ts maps known ∧ Faithful maps known occ

/-- The same of the values of a map that entries with these keys were added to. The keys it had are
    among `ks`. -/
def FaithfulEntries (maps : List (List String)) (keys known : List String)
    (m m' : List (String × Expr)) : Prop :=
  entryOccurrences m' ⊆ entryOccurrences m ++ known ∧
    ∀ ks, (∀ kv ∈ m, kv.1 ∈ ks) → (∀ keys ∈ maps, keys.Nodup) → (keys ++ ks).Nodup →
      entryOccurrences m ++ known ⊆ entryOccurrences m'

/-- These tokens are entries, with the closing brace, that make the map `m'` of the map `m`. -/
def ShowsEntries (ts : List Token) (m m' : List (String × Expr)) : Prop :=
  ∃ keys maps known, HoldsEntries ts maps keys known ∧ FaithfulEntries maps keys known m m'

section
variable {t n c : Token} {ts us : List Token} {occ occ' : List String} {e : Expr}
  {m m' : List (String × Expr)} {key : String}

theorem append_subset_append {l l' r r' : List String} (hl : l ⊆ l') (hr : r ⊆ r') :
    l ++ r ⊆ l' ++ r' :=
  List.append_subset.mpr
    ⟨List.subset_append_of_subset_left r' hl, List.subset_append_of_subset_right l' hr⟩

theorem Faithful.append {maps maps' : List (List String)} {known known' : List String}
    (h : Faithful maps known occ) (h' : Faithful maps' known' occ') :
    Faithful (maps ++ maps') (known ++ known') (occ ++ occ') := by
  refine ⟨append_subset_append h.1 h'.1, fun hmaps => ?_⟩
  obtain ⟨hl, hr⟩ := List.forall_mem_append.mp hmaps
  exact append_subset_append (h.2 hl) (h'.2 hr)

theorem Shows.append (h : Shows ts occ) (h' : Shows us occ') (hus : beginsWithColon us = false) :
    Shows (ts ++ us) (occ ++ occ') := by
  obtain ⟨maps, known, hts, hfaithful⟩ := h
  obtain ⟨maps', known', hus', hfaithful'⟩ := h'
  exact ⟨maps ++ maps', known ++ known', hts.append hus' hus, hfaithful.append hfaithful'⟩

theorem shows_nil : Shows [] [] :=
  ⟨[], [], Token.holds_nil, List.nil_subset _, fun _ => List.nil_subset _⟩

theorem shows_name (h : t.kind = .name) : Shows [t] [t.text] :=
  ⟨[], [t.text], Token.holds_name h, List.Subset.refl _, fun _ => List.Subset.refl _⟩

theorem shows_token (ht : t.Silent) : Shows [t] [] :=
  ⟨[], [], Token.holds_token ht, List.nil_subset _, fun _ => List.nil_subset _⟩

theorem Shows.cons (h : Shows ts occ) (ht : t.Silent) (hts : beginsWithColon ts = false) :
    Shows (t :: ts) occ :=
  (shows_token ht).append h hts

theorem Shows.concat (h : Shows ts occ) (ht : t.Silent) : Shows (ts ++ [t]) occ := by
  have hts := h.append (shows_token ht) ht.beginsWithColon
  rwa [List.append_nil] at hts

/-- Two parts with a token between them. -/
theorem Shows.between (h : Shows ts occ) (ht : t.Silent) (h' : Shows us occ')
    (hus : beginsWithColon us = false) : Shows (ts ++ t :: us) (occ ++ occ') :=
  h.append (h'.cons ht hus) ht.beginsWithColon

/-! ## Maps -/

section
variable {maps maps' : List (List String)} {keys known known' : List String}

/-- What occurs in the values after one is put in occurs in it or did before. -/
theorem entryOccurrences_insertEntry_subset (h : e.occurrences ⊆ known) :
    entryOccurrences (insertEntry key e m) ⊆ entryOccurrences m ++ known := by
  intro x hx
  rw [entryOccurrences_eq] at hx
  obtain ⟨kv, hkv, hx⟩ := List.mem_flatMap.mp hx
  rcases mem_insertEntry hkv with rfl | hkv
  · exact List.mem_append_right _ (h hx)
  · rw [entryOccurrences_eq]
    exact List.mem_append_left _ (List.mem_flatMap.mpr ⟨kv, hkv, hx⟩)

/-- Under a new key nothing is lost. -/
theorem subset_entryOccurrences_insertEntry (hnew : ∀ kv ∈ m, kv.1 ≠ key)
    (h : known ⊆ e.occurrences) :
    entryOccurrences m ++ known ⊆ entryOccurrences (insertEntry key e m) := by
  intro x hx
  rw [entryOccurrences_eq, ((perm_insertEntry hnew).flatMap_right _).mem_iff, List.flatMap_cons,
    ← entryOccurrences_eq]
  exact List.mem_append.mpr ((List.mem_append.mp hx).symm.imp_left fun hx => h hx)

theorem Faithful.lastEntry (h : Faithful maps known e.occurrences) :
    FaithfulEntries maps [key] known m (insertEntry key e m) := by
  refine ⟨entryOccurrences_insertEntry_subset h.1, fun ks hks hmaps hnodup => ?_⟩
  have hnew : ∀ kv ∈ m, kv.1 ≠ key := fun kv hkv heq =>
    (List.nodup_cons.mp hnodup).1 (heq ▸ hks kv hkv)
  exact subset_entryOccurrences_insertEntry hnew (h.2 hmaps)

theorem FaithfulEntries.cons (h' : FaithfulEntries maps' keys known' (insertEntry key e m) m')
    (h : Faithful maps known e.occurrences) :
    FaithfulEntries (maps ++ maps') (keys ++ [key]) (known ++ known') m m' := by
  rw [FaithfulEntries, ← List.append_assoc]
  refine ⟨List.Subset.trans h'.1 (append_subset_append (entryOccurrences_insertEntry_subset h.1)
    (List.Subset.refl known')), fun ks hks hmaps hnodup => ?_⟩
  rw [List.append_assoc, List.singleton_append] at hnodup
  obtain ⟨hl, hr⟩ := List.forall_mem_append.mp hmaps
  have hnew : ∀ kv ∈ m, kv.1 ≠ key := fun kv hkv heq =>
    (List.nodup_cons.mp (List.nodup_append.mp hnodup).2.1).1 (heq ▸ hks kv hkv)
  have hkeys : ∀ kv ∈ insertEntry key e m, kv.1 ∈ key :: ks := fun kv hkv => by
    rcases mem_insertEntry hkv with rfl | hkv
    · exact List.mem_cons_self
    · exact List.mem_cons_of_mem _ (hks kv hkv)
  exact List.Subset.trans
    (append_subset_append (subset_entryOccurrences_insertEntry hnew (h.2 hl))
      (List.Subset.refl known'))
    (h'.2 (key :: ks) hkeys hr hnodup)

end

theorem Shows.lastEntry (h : Shows ts e.occurrences) (ht : t.key? = some key)
    (hn : n.kind = .colon) (hc : c.kind = .closeBrace) :
    ShowsEntries (t :: n :: (ts ++ [c])) m (insertEntry key e m) := by
  obtain ⟨maps, known, hts, hfaithful⟩ := h
  exact ⟨[key], maps, known, hts.lastEntry ht hn hc, hfaithful.lastEntry⟩

theorem ShowsEntries.cons (h' : ShowsEntries us (insertEntry key e m) m')
    (h : Shows ts e.occurrences) (ht : t.key? = some key) (hn : n.kind = .colon)
    (hc : c.kind = .comma) (hus : beginsWithColon us = false) :
    ShowsEntries (t :: n :: (ts ++ c :: us)) m m' := by
  obtain ⟨maps, known, hts, hfaithful⟩ := h
  obtain ⟨keys', maps', known', hus', hfaithful'⟩ := h'
  exact ⟨keys' ++ [key], maps ++ maps', known ++ known', hus'.cons hts ht hn hc hus,
    hfaithful'.cons hfaithful⟩

theorem ShowsEntries.map (h : ShowsEntries ts [] m) (ht : t.kind = .openBrace) :
    Shows (t :: ts) (entryOccurrences m) := by
  obtain ⟨keys, maps, known, hts, hsub, hsup⟩ := h
  refine ⟨maps ++ [keys], known, hts.map ht, hsub, fun hmaps => ?_⟩
  obtain ⟨hl, hr⟩ := List.forall_mem_append.mp hmaps
  refine hsup [] (List.forall_mem_nil _) hl ?_
  rw [List.append_nil]
  exact hr keys List.mem_cons_self

theorem shows_emptyMap (ht : t.kind = .openBrace) (hc : c.kind = .closeBrace) : Shows [t, c] [] :=
  ⟨[[]], [], Token.holds_emptyMap ht hc, List.nil_subset _, fun _ => List.nil_subset _⟩

/-! ## Single tokens and lists -/

theorem shows_atom (h : t.atom? = some e) : Shows [t] e.occurrences := by
  unfold Token.atom? at h
  split at h
  case h_1 hk =>
    cases h
    exact shows_name hk
  case h_3 hk =>
    split at h <;> cases h
    exact shows_token (Token.silent_of_kind hk (by decide))
  case h_2 hk | h_4 hk | h_5 hk =>
    cases h
    exact shows_token (Token.silent_of_kind hk (by decide))
  case h_6 => cases h

theorem occurrences_collect (es : List Expr) (l : Location) :
    (collect es l).occurrences = listOccurrences es := by
  unfold collect
  split
  · rw [listOccurrences, listOccurrences, List.append_nil]
  · rfl

end

end Expr

namespace Grammar

open Token (beginsWithColon)
open EL.Expr (Shows ShowsEntries)

/-- No phrase begins with a colon. -/
theorem Derives.beginsWithColon {π : Policy} {limit : Option Nat} {b : Nat} {p : Phrase}
    {ts : List Token} {k : Kind} (h : Derives π limit b p ts k) : beginsWithColon ts = false := by
  induction h with
  | tailEnd | subscriptsEnd => rfl
  | grouped ho | switch _ ho | parens ho | array ho | emptyMap ho | map ho | subscriptsMore ho
  | rightBounded ho => exact Token.beginsWithColon_cons (by simp [ho])
  | tailMore ht => exact (Token.silent_of_binary ht).beginsWithColon
  | sign ht => exact (Token.silent_of_sign ht).beginsWithColon
  | noItems hc => exact (Token.silent_of_closer hc).beginsWithColon
  | atom ht =>
    refine Token.beginsWithColon_cons fun hk => ?_
    rw [Token.atom?, hk] at ht
    cases ht
  | lastEntry ht | moreEntries ht =>
    refine Token.beginsWithColon_cons ?_
    rcases kind_of_key? ht with h | h <;> simp [h]
  | ungrouped _ _ ih | bare _ ih | someItems _ _ ih => exact ih
  | chain _ _ ih ih' | subscripted _ _ _ _ ih ih' => exact Token.beginsWithColon_append ih ih'
  | lastItem _ hc ih =>
    exact Token.beginsWithColon_append ih (Token.silent_of_closer hc).beginsWithColon
  | moreItems _ hc _ ih | bounded _ hc _ ih | boundedIndex _ hc _ _ ih | leftBounded _ hc ih =>
    exact Token.beginsWithColon_append ih (Token.beginsWithColon_cons (by simp [hc]))

/-- What is said of a phrase and its tokens: what it stands for has the names that they show. For a
    tail and subscripts these are the names that come to those there are. -/
def Phrase.Shown (p : Phrase) (ts : List Token) : Prop :=
  match p with
  | .expression e | .term e | .item _ e | .operand e | .simple e => Shows ts e.occurrences
  | .tail e e' | .subscripts e e' => ∃ occ, Shows ts occ ∧ e'.occurrences = e.occurrences ++ occ
  | .listing _ es | .items _ es => Shows ts (Expr.listOccurrences es)
  | .entries m m' => ShowsEntries ts m m'

section
variable {t o c : Token} {ts us : List Token} {e e' : Expr}

/-- Parentheses, and what goes on from them. -/
theorem shows_group (ho : o.kind = .openParen) (hc : c.kind = .closeParen)
    (he : Shows ts e.occurrences) (hts : beginsWithColon ts = false)
    (hu : (Phrase.tail (.unary .group e o.location) e').Shown us)
    (hus : beginsWithColon us = false) : Shows (o :: (ts ++ c :: us)) e'.occurrences := by
  obtain ⟨occ, hshows, heq⟩ := hu
  have hclose := Token.silent_of_kind hc (by decide)
  rw [heq]
  exact (he.between hclose hshows hus).cons (Token.silent_of_kind ho (by decide))
    (Token.beginsWithColon_append hts hclose.beginsWithColon)

/-- **Every phrase shows the names of what it stands for.** The one token that a rule adds to those
    of its parts is silent, unless it is a name or encloses a map. -/
theorem Derives.shown {π : Policy} {limit : Option Nat} {b : Nat} {p : Phrase} {k : Kind}
    (h : Derives π limit b p ts k) : p.Shown ts := by
  induction h with
  | grouped ho hc ht hu iht ihu | parens ho hc ht hu _ iht ihu =>
    exact shows_group ho hc iht ht.beginsWithColon ihu hu.beginsWithColon
  | ungrouped _ _ ih | bare _ ih | someItems _ _ ih => exact ih
  | chain _ hu iho ihu | subscripted _ _ hu _ iho ihu =>
    obtain ⟨occ, hshows, heq⟩ := ihu
    rw [Phrase.Shown, heq]
    exact iho.append hshows hu.beginsWithColon
  | tailEnd | subscriptsEnd => exact ⟨[], Expr.shows_nil, (List.append_nil _).symm⟩
  | tailMore ht hr hu ihr ihu =>
    obtain ⟨occ, hshows, heq⟩ := ihu
    have hrest := ihr.append hshows hu.beginsWithColon
    refine ⟨_, hrest.cons (Token.silent_of_binary ht)
      (Token.beginsWithColon_append hr.beginsWithColon hu.beginsWithColon), ?_⟩
    rw [heq, Expr.occurrences, List.append_assoc]
  | switch _ ho hs ih | array ho hs ih =>
    exact ih.cons (Token.silent_of_kind ho (by decide)) hs.beginsWithColon
  | atom ht => exact Expr.shows_atom ht
  | sign ht ho ih => exact ih.cons (Token.silent_of_sign ht) ho.beginsWithColon
  | emptyMap ho hc => exact Expr.shows_emptyMap ho hc
  | map ho _ ih => exact ih.map ho
  | subscriptsMore ho hs hu ihs ihu =>
    obtain ⟨occ, hshows, heq⟩ := ihu
    have hrest := ihs.append hshows hu.beginsWithColon
    refine ⟨_, hrest.cons (Token.silent_of_kind ho (by decide))
      (Token.beginsWithColon_append hs.beginsWithColon hu.beginsWithColon), ?_⟩
    rw [heq, Expr.occurrences, Expr.occurrences_collect, List.append_assoc]
  | noItems hc => exact Expr.shows_token (Token.silent_of_closer hc)
  | @lastItem _ _ _ _ _ e _ hc ih =>
    have hitem : Expr.listOccurrences [e] = e.occurrences := List.append_nil _
    rw [Phrase.Shown, hitem]
    exact ih.concat (Token.silent_of_closer hc)
  | moreItems _ hc hs ihi ihs =>
    exact ihi.between (Token.silent_of_kind hc (by decide)) ihs hs.beginsWithColon
  | bounded _ ht hh ihl ihh | boundedIndex _ ht _ hh ihl ihh =>
    exact ihl.between (Token.silent_of_kind ht (by decide)) ihh hh.beginsWithColon
  | leftBounded _ ht ih => exact ih.concat (Token.silent_of_kind ht (by decide))
  | rightBounded ht hh ih =>
    exact ih.cons (Token.silent_of_kind ht (by decide)) hh.beginsWithColon
  | lastEntry ht hn _ hc ih => exact ih.lastEntry ht hn hc
  | moreEntries ht hn _ hc hm ihe ihm => exact ihm.cons ihe ht hn hc hm.beginsWithColon

end

end Grammar

/-- **The variables of an expression are exactly its free names.** For every tree the loop collects
    what the recursion over trees lists, in order and each once: the names of the variables among its
    nodes. Equal trees have the same ones. The variables of a tree that was read are names that were
    read for it; and if no map of the text has a key twice, they are those of these names that are no
    keys. -/
theorem variables_exact :
    (∀ e : Expr, e.gathered = e.freeVariables ∧ e.gathered.Pairwise (· < ·) ∧
      ∀ x, (x ∈ e.gathered ↔ x ∈ e.occurrences) ∧
        (x ∈ e.gathered ↔ ∃ l, .var x l ∈ e.nodes.map (·.2))) ∧
    (∀ a b : Expr, a.same b = true → a.gathered = b.gathered) ∧
    ∀ (c stop : Cursor) (o : ParseOptions) (e : Expr), c.parse o = (.ok e, stop) →
      (∃ ts, c.Reads ts stop) ∧ ∀ ts, c.Reads ts stop →
        (∀ x ∈ e.gathered, ∃ t ∈ ts, t.kind = .name ∧ t.text = x) ∧
        ((∀ keys ∈ Token.mapKeys [] ts, keys.Nodup) →
          ∀ x, x ∈ e.gathered ↔ x ∈ Token.names ts) := by
  refine ⟨fun e => ⟨e.gathered_eq, e.increasing_gathered, fun x => ⟨Expr.mem_gathered, ?_⟩⟩,
    fun a b h => Expr.gathered_eq_of_same h, fun c stop o e h => ?_⟩
  · exact Expr.mem_gathered.trans e.mem_occurrences_iff
  · obtain ⟨us, t, after, ha⟩ := Parser.exists_accepts_of_parse h
    refine ⟨⟨us, ha.reads⟩, fun ts hreads => ?_⟩
    obtain rfl : us = ts :=
      List.append_cancel_right (ha.reads.stream.1.symm.trans hreads.stream.1)
    obtain ⟨maps, known, hts, hsub, hsup⟩ := ha.derives.shown
    obtain ⟨hnames, hmaps⟩ := hts [] rfl
    rw [List.append_nil, Token.names, List.append_nil] at hnames
    have hkeys := hmaps []
    rw [List.append_nil, Token.mapKeys, List.append_nil] at hkeys
    have hmem : ∀ x ∈ e.gathered, x ∈ Token.names us := fun x hx =>
      hnames ▸ hsub (Expr.mem_gathered.mp hx)
    refine ⟨fun x hx => Token.mem_names (hmem x hx), fun hnodup x => ⟨hmem x, fun hx => ?_⟩⟩
    exact Expr.mem_gathered.mpr (hsup (hkeys ▸ hnodup) (hnames ▸ hx))

/-- Places make no difference; and a name can be a key in one place and a variable in another, as `x`
    is here. -/
theorem variables_exact_keys :
    (Expr.var "x" ⟨1, 2⟩).gathered = (Expr.var "x" ⟨1, 11⟩).gathered ∧
      ∃ e stop ts, (Cursor.ofText "\x7bx: y, z: x\x7d").parse {} = (.ok e, stop) ∧
      (Cursor.ofText "\x7bx: y, z: x\x7d").Reads ts stop ∧
      Token.mapKeys [] ts = [["z", "x"]] ∧ Token.names ts = ["y", "x"] ∧
      ∀ x, x ∈ e.gathered ↔ x ∈ Token.names ts := by
  have hreads : (Cursor.ofText "\x7bx: y, z: x\x7d").Reads
      [⟨.openBrace, "\x7b", ⟨0, ⟨1, 1⟩⟩⟩, ⟨.name, "x", ⟨1, ⟨1, 2⟩⟩⟩, ⟨.colon, ":", ⟨2, ⟨1, 3⟩⟩⟩,
        ⟨.name, "y", ⟨4, ⟨1, 5⟩⟩⟩, ⟨.comma, ",", ⟨5, ⟨1, 6⟩⟩⟩, ⟨.name, "z", ⟨7, ⟨1, 8⟩⟩⟩,
        ⟨.colon, ":", ⟨8, ⟨1, 9⟩⟩⟩, ⟨.name, "x", ⟨10, ⟨1, 11⟩⟩⟩,
        ⟨.closeBrace, "\x7d", ⟨11, ⟨1, 12⟩⟩⟩]
      ⟨[], ⟨12, ⟨1, 13⟩⟩⟩ :=
    .cons rfl (by decide) <| .cons rfl (by decide) <| .cons rfl (by decide) <|
    .cons rfl (by decide) <| .cons rfl (by decide) <| .cons rfl (by decide) <|
    .cons rfl (by decide) <| .cons rfl (by decide) <| .cons rfl (by decide) <| .nil _
  have haccepts : Parser.Accepts none .initial _ _ _ _ _ _ := ⟨hreads, rfl, _, rfl, rfl⟩
  have hparse := haccepts.parse_strict none
  obtain ⟨-, hall⟩ := variables_exact.2.2 _ _ _ _ hparse
  exact ⟨variables_exact.2.1 _ _ (by decide),
    _, _, _, hparse, hreads, rfl, rfl, (hall _ hreads).2 (by decide)⟩

end EL
