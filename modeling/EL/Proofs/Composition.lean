import EL.Proofs.Embedding
import EL.Proofs.Layout
import EL.Proofs.Tiling

/-!
# Texts put together

Where tokens are set apart by a blank, the one text does not show in what is read of the other. So
**to scan two texts with a line feed between them is to scan the one and then the other**
(`tokens_compose`): the tokens of the second text are what they are when it is scanned alone, and
only stand behind the first. For the same reason what stands between two tokens can be exchanged for
any gap that begins with a blank.

Both come from two facts. A passage is read again with a blank behind it (`Reads.replace`), and what
is read of a text depends on where it stands in no other way than that it stands there
(`stream_behind`).
-/

set_option autoImplicit false

namespace EL

open Text (isBlank)

/-! ## The tokens of a text behind another -/

namespace Cursor

/-- **What is read of a text is the same behind another one**, and stands there. -/
theorem stream_behind (p : Position) (c : Cursor) (hc : c.location.Counted) :
    (c.behind p).stream.tokens = c.stream.tokens.map (Token.behind p) ∧
      (c.behind p).stream.error? = c.stream.error?.map (ParseError.behind p) := by
  have hnext := next_behind p hc
  match hn : c.next with
  | (.error x, stop) =>
    rw [hn] at hnext
    rw [stream_of_error hn, stream_of_error hnext]
    exact ⟨rfl, rfl⟩
  | (.ok t, after) =>
    rw [hn] at hnext
    by_cases ht : t.kind = .endOfInput
    · rw [stream_of_end hn ht, stream_of_end hnext ht]
      exact ⟨rfl, rfl⟩
    · have hlt := length_rest_next_lt hn ht
      obtain ⟨htokens, herror⟩ := stream_behind p after ((onward_of_next hn true).counted hc)
      rw [stream_of_token hn ht, stream_of_token hnext ht]
      exact ⟨congrArg (t.behind p :: ·) htokens, herror⟩
termination_by c.rest.length

/-- A cursor stands before a text that begins there. -/
theorem eq_behind (c : Cursor) : c = (start c.rest .origin).behind c.position :=
  congrArg (Cursor.mk c.rest) (Position.behind_start c.position).symm

theorem stream_eq (c : Cursor) :
    c.stream.tokens = (start c.rest .origin).stream.tokens.map (Token.behind c.position) ∧
      c.stream.error? = (start c.rest .origin).stream.error?.map (ParseError.behind c.position) := by
  have hstream := stream_behind c.position (start c.rest .origin) Location.counted_origin
  rwa [← eq_behind c] at hstream

/-! ## The same text behind other gaps -/

section
variable {c c' : Cursor} {ts : List Token}

theorem tokens_eq_ok_iff :
    c.tokens = .ok ts ↔ c.stream.tokens = ts ∧ c.stream.error? = none := by
  constructor
  · exact stream_of_tokens
  · rintro ⟨rfl, herror⟩
    rw [tokens, herror]

/-- A gap is passed as a whole. -/
theorem skipGap_of_isGap {g r : List Char} (hg : IsGap False g) (hr : gap r = []) (p : Position) :
    skipGap ⟨g ++ r, p⟩ = ⟨r, p.advance g⟩ := by
  rw [skipGap, hg.gap_append, hr, List.append_nil, pass, List.drop_left]

/-- Behind a gap there is none. -/
theorem gap_skipGap (c : Cursor) : gap c.skipGap.rest = [] := by
  have hgap : gapFrom false (gap c.rest ++ c.skipGap.rest) = gap c.rest := by
    rw [c.gap_append_rest]
    rfl
  exact gap_of_gapFrom hgap

/-- A scan begins where the gap ends. -/
theorem tokens_skipGap (c : Cursor) : c.skipGap.tokens = c.tokens := by
  apply tokens_congr
  rw [next, skipGap_of_gap c.gap_skipGap]
  rfl

/-- **Tokens are what they are by the text behind the gap**, wherever that stands. -/
theorem exists_tokens_of_skipGap (h : c'.skipGap.rest = c.skipGap.rest) (hts : c.tokens = .ok ts) :
    ∃ ts', c'.tokens = .ok ts' ∧ ts'.map Token.face = ts.map Token.face := by
  rw [← tokens_skipGap] at hts ⊢
  obtain ⟨rfl, herror⟩ := tokens_eq_ok_iff.mp hts
  obtain ⟨htokens, herror'⟩ := c.skipGap.stream_eq
  obtain ⟨htokens', herror''⟩ := c'.skipGap.stream_eq
  rw [herror, eq_comm, Option.map_eq_none_iff] at herror'
  rw [h] at htokens' herror''
  refine ⟨_, tokens_eq_ok_iff.mpr ⟨htokens', by rw [herror'', herror']; rfl⟩, ?_⟩
  rw [htokens, List.map_map, List.map_map]
  rfl

end

/-! ## A line feed between two texts -/

/-- The end of a line sets what follows it apart from the tokens in front of it. -/
theorem Reads.line {c here : Cursor} {ts : List Token} (h : c.Reads ts here)
    (hgap : gap here.rest = here.rest) (r : List Char) :
    ∃ p, c.rest = p ++ here.rest ∧ (⟨p ++ (here.rest ++ '\n' :: r), c.position⟩ : Cursor).Reads ts
        ⟨here.rest ++ '\n' :: r, here.position⟩ ∧
      (⟨here.rest ++ '\n' :: r, here.position⟩ : Cursor).stream =
        (⟨r, c.position.advance (p ++ (here.rest ++ ['\n']))⟩ : Cursor).stream := by
  obtain ⟨p, hp, hhere, hreads⟩ :=
    h.replace (.newLine here.rest r) fun _ _ _ => beginsWithPoint_newLine hgap r
  refine ⟨p, hp, hreads, stream_congr ?_⟩
  rw [next_newLine hgap, next_blank rfl, hhere, ← Position.advance_append, ← Position.advance_append]

/-- The same tokens are read in front of a blank, and the same ones behind the gap that it begins. -/
theorem Reads.exists_tokens_of_gap {c here : Cursor} {us ts : List Token} {p g : List Char} {b : Char}
    (h : c.Reads us here) (hts : c.tokens = .ok ts) (hp : c.rest = p ++ here.rest)
    (hb : isBlank b = true) (hg : IsGap False g) :
    ∃ ts', (⟨p ++ (b :: (g ++ here.skipGap.rest)), c.position⟩ : Cursor).tokens = .ok ts' ∧
      ts'.map Token.face = ts.map Token.face := by
  obtain ⟨p', hp', -, hreads⟩ := h.replace (.blank here.rest hb (g ++ here.skipGap.rest))
    fun _ _ _ => beginsWithPoint_blank hb _
  obtain rfl : p = p' := List.append_cancel_right (hp.symm.trans hp')
  have hskip : (⟨b :: (g ++ here.skipGap.rest), here.position⟩ : Cursor).skipGap.rest =
      here.skipGap.rest := by
    rw [← List.cons_append, skipGap_of_isGap (.blank hb hg) here.gap_skipGap]
  obtain ⟨vs, hvs, rfl⟩ := h.tokens_ok_iff.mp hts
  obtain ⟨vs', hvs', hfaces⟩ := exists_tokens_of_skipGap hskip hvs
  refine ⟨us ++ vs', hreads.tokens_ok_iff.mpr ⟨vs', hvs', rfl⟩, ?_⟩
  rw [List.map_append, List.map_append, hfaces]

end Cursor

/-- **Texts are scanned one by one where they are set apart.** Behind a text that is scanned to its end,
    and a line feed, any other text is scanned as it is alone: to its tokens, each as much further on
    as the first text is long, and to the same error if no token begins in some place. And a text that
    is scanned to its end is scanned to the same kinds and texts if the gap before any token, or behind
    the last one, is exchanged for another one that begins with a blank. -/
theorem tokens_compose (text : String) (l : Location) (ts : List Token)
    (h : (Cursor.ofText text l).tokens = .ok ts) :
    (∃ us t, ts = us ++ [t] ∧ t.kind = .endOfInput ∧ ∀ rest : String,
      (Cursor.ofText (text ++ "\n" ++ rest) l).stream.tokens =
          us ++ (Cursor.ofText rest).stream.tokens.map
            (Token.behind ⟨text.utf8ByteSize + 1, l.advance (text ++ "\n").toList⟩) ∧
        (Cursor.ofText (text ++ "\n" ++ rest) l).stream.error? =
          (Cursor.ofText rest).stream.error?.map
            (ParseError.behind ⟨text.utf8ByteSize + 1, l.advance (text ++ "\n").toList⟩)) ∧
    ∀ us here p b g, (Cursor.ofText text l).Reads us here → text.toList = p ++ here.rest →
      isBlank b = true → IsGap False g →
      ∃ ts', (Cursor.ofText (String.ofList (p ++ (b :: (g ++ here.skipGap.rest)))) l).tokens =
          .ok ts' ∧ ts'.map Token.face = ts.map Token.face := by
  constructor
  · obtain ⟨us, t, rfl, ht, -⟩ := Cursor.tokens_eq_ok _ h
    refine ⟨us, t, rfl, ht, fun rest => ?_⟩
    obtain ⟨here, after, hus, hn⟩ := Cursor.exists_reads_of_tokens h
    obtain ⟨hgap, -, -⟩ := Cursor.next_eq_end hn ht
    obtain ⟨p, hp, hreads, hline⟩ := hus.line hgap rest.toList
    have htext : text.toList = p ++ here.rest := hp
    have hstart : Cursor.ofText (text ++ "\n" ++ rest) l =
        ⟨p ++ (here.rest ++ '\n' :: rest.toList), (Cursor.ofText text l).position⟩ := by
      simp [Cursor.ofText, Cursor.start, htext]
    have hbegin : (Cursor.ofText text l).position.advance (p ++ (here.rest ++ ['\n'])) =
        ⟨text.utf8ByteSize + 1, l.advance (text ++ "\n").toList⟩ := by
      have hfeed : '\n'.utf8Size = 1 := rfl
      rw [← List.append_assoc, ← htext, ← byteLength_toList]
      simp [hfeed, Cursor.ofText, Cursor.start, Position.start, Position.advance, byteLength_append]
    rw [hbegin] at hline
    obtain ⟨htokens, herror⟩ := hreads.stream
    obtain ⟨hrest, hrestError⟩ := Cursor.stream_eq
      ⟨rest.toList, ⟨text.utf8ByteSize + 1, l.advance (text ++ "\n").toList⟩⟩
    rw [hline] at htokens herror
    rw [hstart, htokens, herror, hrest, hrestError]
    exact ⟨rfl, rfl⟩
  · intro us here p b g hus hp hb hg
    have htokens := hus.exists_tokens_of_gap h hp hb hg
    rwa [Cursor.ofText, String.toList_ofList]

/-- With a line feed between them, two slashes are two operators. -/
theorem tokens_compose_slashes : (Cursor.ofText ("/" ++ "\n" ++ "/")).stream.tokens =
    [⟨.slash, "/", ⟨0, ⟨1, 1⟩⟩⟩, ⟨.slash, "/", ⟨2, ⟨2, 1⟩⟩⟩, ⟨.endOfInput, "", ⟨3, ⟨2, 2⟩⟩⟩] := by
  have h : (Cursor.ofText "/").tokens =
      .ok ([⟨.slash, "/", ⟨0, ⟨1, 1⟩⟩⟩] ++ [⟨.endOfInput, "", ⟨1, ⟨1, 2⟩⟩⟩]) :=
    Cursor.tokens_of_scanWithin 2 rfl
  obtain ⟨⟨us, t, hts, -, hrest⟩, -⟩ := tokens_compose "/" .origin _ h
  obtain ⟨rfl, -⟩ := List.append_inj' hts rfl
  rw [(hrest "/").1, (Cursor.stream_of_tokens h).1]
  rfl

end EL
