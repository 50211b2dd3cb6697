import EL.Proofs.Lenient

/-!
# A cursor only goes on

Whatever is read, a token, something that is no token, or an expression, **the cursor then stands
further on in the same text**, or where it stood: `Cursor.Onward` gives the characters between the two
places, and they are what the place was advanced by. Two consequences are used all the time.

* A cursor is found again by what is left of the text (`Onward.eq_of_rest`): how far it has come, in
  bytes, lines and columns, follows.
* What stands further on has a later line, or a later column on the same line (`Onward.location_lt`).
-/

set_option autoImplicit false

namespace EL

/-! ## Places -/

namespace Location

theorem lt_trans {a b c : Location} (hab : a < b) (hbc : b < c) : a < c := by
  rcases hab with hab | ⟨hline, hab⟩ <;> rcases hbc with hbc | ⟨hline', hbc⟩
  · exact .inl (Nat.lt_trans hab hbc)
  · exact .inl (hline' ▸ hab)
  · exact .inl (hline ▸ hbc)
  · exact .inr ⟨hline.trans hline', Nat.lt_trans hab hbc⟩

theorem lt_irrefl (l : Location) : ¬ l < l := by
  rintro (h | ⟨-, h⟩)
  · exact Nat.lt_irrefl _ h
  · exact Nat.lt_irrefl _ h

theorem lt_asymm {a b : Location} (h : a < b) : ¬ b < a := fun h' => lt_irrefl a (lt_trans h h')

theorem lt_next (l : Location) (c : Char) : l < l.next c := by
  unfold next
  split
  · exact .inl (Nat.lt_succ_self _)
  · exact .inr ⟨rfl, Nat.lt_succ_self _⟩

theorem lt_advance (l : Location) {w : List Char} (hw : w ≠ []) : l < l.advance w := by
  induction w generalizing l with
  | nil => exact absurd rfl hw
  | cons c w ih =>
    rw [advance_cons]
    by_cases hnil : w = []
    · subst hnil
      exact lt_next l c
    · exact lt_trans (lt_next l c) (ih (l.next c) hnil)

end Location

/-- Every character takes some bytes. -/
theorem byteLength_pos {w : List Char} (hw : w ≠ []) : 0 < byteLength w := by
  obtain ⟨c, r, rfl⟩ := List.exists_cons_of_ne_nil hw
  rw [byteLength_cons]
  exact Nat.add_pos_left c.utf8Size_pos _

/-- Bytes are counted as strings count them. -/
theorem byteLength_toList (s : String) : byteLength s.toList = s.utf8ByteSize := by
  have h : ∀ cs : List Char, byteLength cs = (String.ofList cs).utf8ByteSize := by
    intro cs
    induction cs with
    | nil => simp
    | cons c cs ih =>
      rw [byteLength_cons, ih, ← List.singleton_append, String.ofList_append,
        String.utf8ByteSize_append]
      simp
  rw [h, String.ofList_toList]

/-! ## Text that makes up no token -/

namespace Lexeme

variable {c : Char} {r : List Char} {m : Misfit}

/-- What was read before it was clear that there is no lexeme is a part of the text. -/
theorem passed_prefix (h : read c r = .error m) : m.passed <+: c :: r := by
  cases unread_of_read h with
  | character => exact List.nil_prefix
  | string => exact List.prefix_rfl
  | @number w s hs => exact ⟨s, by simp [hs]⟩

theorem stage_cause (h : read c r = .error m) : m.cause.stage = .lexical := by
  cases unread_of_read h <;> rfl

end Lexeme

namespace Cursor

/-! ## Further on -/

/-- The second cursor stands behind some characters that the first stands before. -/
def Onward (c c' : Cursor) : Prop :=
  ∃ w, c.rest = w ++ c'.rest ∧ c'.position = c.position.advance w

namespace Onward

variable {a b c : Cursor}

theorem refl (c : Cursor) : c.Onward c := ⟨[], rfl, rfl⟩

theorem trans (hab : a.Onward b) (hbc : b.Onward c) : a.Onward c := by
  obtain ⟨v, hv, hb⟩ := hab
  obtain ⟨w, hw, hc⟩ := hbc
  refine ⟨v ++ w, ?_, ?_⟩
  · rw [hv, hw, List.append_assoc]
  · rw [hc, hb, Position.advance_append]

/-- There is only one place before what is left of a text. -/
theorem eq_of_rest (hb : a.Onward b) (hc : a.Onward c) (h : b.rest = c.rest) : b = c := by
  obtain ⟨v, hv, hb⟩ := hb
  obtain ⟨w, hw, hc⟩ := hc
  rw [hv, h] at hw
  obtain rfl := List.append_cancel_right hw
  obtain ⟨rest, position⟩ := b
  obtain ⟨rest', position'⟩ := c
  simp only at h hb hc
  rw [h, hb, hc]

theorem length_le (h : a.Onward b) : b.rest.length ≤ a.rest.length := by
  obtain ⟨w, hw, -⟩ := h
  rw [hw, List.length_append]
  exact Nat.le_add_left _ _

theorem exists_ne_nil (h : a.Onward b) (hlt : b.rest.length < a.rest.length) :
    ∃ w, w ≠ [] ∧ b.position = a.position.advance w := by
  obtain ⟨w, hw, hb⟩ := h
  refine ⟨w, ?_, hb⟩
  rintro rfl
  rw [hw] at hlt
  exact absurd hlt (Nat.lt_irrefl _)

/-- **Further on is later**, by lines and columns. -/
theorem location_lt (h : a.Onward b) (hlt : b.rest.length < a.rest.length) :
    a.location < b.location := by
  obtain ⟨w, hw, hb⟩ := h.exists_ne_nil hlt
  rw [location, location, hb]
  exact Location.lt_advance _ hw

/-- Further on is later, by bytes. -/
theorem offset_lt (h : a.Onward b) (hlt : b.rest.length < a.rest.length) : a.offset < b.offset := by
  obtain ⟨w, hw, hb⟩ := h.exists_ne_nil hlt
  rw [offset, offset, hb]
  exact Nat.lt_add_of_pos_right (byteLength_pos hw)

theorem not_location_lt (h : a.Onward b) : ¬ b.location < a.location := by
  obtain ⟨w, -, hb⟩ := h
  rw [location, location, hb]
  by_cases hw : w = []
  · subst hw
    exact Location.lt_irrefl _
  · exact Location.lt_asymm (Location.lt_advance _ hw)

end Onward

/-! ## What reading does -/

section
variable {c here after stop : Cursor} {t : Token} {x : ParseError} {ts : List Token}

theorem onward_pass {w : List Char} (h : w <+: c.rest) : c.Onward (c.pass w) := by
  obtain ⟨r, hr⟩ := h
  refine ⟨w, ?_, rfl⟩
  show c.rest = w ++ c.rest.drop w.length
  rw [← hr, List.drop_left]

theorem onward_skipGap (c : Cursor) : c.Onward c.skipGap := onward_pass (gapFrom_isPrefix false _)

theorem onward_readHere (c : Cursor) : c.Onward c.readHere.2 := by
  unfold readHere
  split
  · exact .refl c
  · rename_i hr
    split
    · rename_i hx
      exact onward_pass (hr ▸ Lexeme.read_prefix hx)
    · rename_i hm
      exact onward_pass (hr ▸ Lexeme.passed_prefix hm)

/-- **To read is to go on**, whether a token was read or not. -/
theorem onward_next (c : Cursor) : c.Onward c.next.2 :=
  (onward_skipGap c).trans (onward_readHere _)

/-- So a cursor has also gone on if it may stand before what was read. -/
theorem onward_of_next {r : Except ParseError Token} (h : c.next = (r, after)) (taken : Bool) :
    c.Onward (if taken then after else c) := by
  have honward := onward_next c
  rw [h] at honward
  split
  · exact honward
  · exact .refl c

theorem start_of_next (h : c.next = (.ok t, after)) : t.start = c.skipGap.position := by
  unfold next readHere at h
  split at h
  · cases h
    rfl
  · split at h <;> cases h
    rfl

/-- An error is a lexical one, at the place where no token begins. -/
theorem of_next_error (h : c.next = (.error x, stop)) :
    x.stage = .lexical ∧ x.location = c.skipGap.location ∧ x.path = none := by
  unfold next readHere at h
  split at h
  · cases h
  · split at h <;> cases h
    rename_i m hm
    exact ⟨Lexeme.stage_cause hm, rfl, rfl⟩

/-- Where a token was read, the next place is later than its own. -/
theorem length_rest_of_next (h : c.next = (.ok t, after)) (ht : t.kind ≠ .endOfInput) :
    c.skipGap.Onward after ∧ after.rest.length < c.skipGap.rest.length := by
  have honward := onward_readHere c.skipGap
  rw [show c.skipGap.readHere = _ from h] at honward
  exact ⟨honward, length_rest_readHere_lt h ht⟩

theorem Reads.onward (h : c.Reads ts stop) : c.Onward stop := by
  induction h with
  | nil c => exact .refl c
  | cons hn _ _ ih => exact (onward_of_next hn true).trans ih

/-- What can be read behind a passage stands no earlier than what can be read in front of it. -/
theorem Reads.onward_skipGap (h : c.Reads ts stop) : c.skipGap.Onward stop.skipGap := by
  cases h with
  | nil => exact .refl _
  | cons hn ht hts =>
    exact ((length_rest_of_next hn ht).1.trans hts.onward).trans (Cursor.onward_skipGap stop)

/-- Every token of a passage stands further on than what the passage is read from. -/
theorem Reads.exists_place (h : c.Reads ts stop) (ht : t ∈ ts) :
    ∃ here, c.skipGap.Onward here ∧ t.start = here.position := by
  induction h with
  | nil => cases ht
  | @cons _ after _ _ _ hn hk _ ih =>
    rcases List.mem_cons.mp ht with rfl | ht
    · exact ⟨_, .refl _, start_of_next hn⟩
    · obtain ⟨here, hhere, hstart⟩ := ih ht
      have hover := (length_rest_of_next hn hk).1.trans (Cursor.onward_skipGap after)
      exact ⟨here, hover.trans hhere, hstart⟩

/-- **The tokens of a passage stand one behind the other.** -/
theorem Reads.pairwise_location (h : c.Reads ts stop) :
    ts.Pairwise fun t u => t.location < u.location := by
  induction h with
  | nil => exact .nil
  | @cons _ after _ _ _ hn hk hts ih =>
    refine List.pairwise_cons.mpr ⟨fun u hu => ?_, ih⟩
    obtain ⟨here, hhere, hstart⟩ := hts.exists_place hu
    obtain ⟨hover, hlt⟩ := length_rest_of_next hn hk
    have honward := (Cursor.onward_skipGap after).trans hhere
    rw [Token.location, Token.location, start_of_next hn, hstart]
    exact (hover.trans honward).location_lt (Nat.lt_of_le_of_lt honward.length_le hlt)

end

/-- **To parse is to go on**, in either mode and whatever comes of it. -/
theorem onward_parse (c : Cursor) (o : ParseOptions) : c.Onward (c.parse o).2 := by
  obtain ⟨mode, path, limit⟩ := o
  cases Parser.run_ends limit .initial c with
  | accepts h =>
    rw [h.parse_stop]
    exact h.reads.onward
  | refuses h | breaks h =>
    rw [h.parse]
    exact h.reads.onward.trans (onward_of_next h.next _)

end Cursor

/-! ## Where parses fail -/

namespace Parser

/-- What a parse has against a verdict. -/
def Verdict.error? (mode : Mode) : Verdict → Option ParseError
  | .refused x _ => some x
  | .accepted _ _ following => mode.objection? following

theorem error?_of_parse {c stop : Cursor} {o : ParseOptions} {x : ParseError}
    (h : c.parse o = (.error x, stop)) :
    ∃ y, (run o.limit .initial c c.stream).error? o.mode = some y ∧ x = y.attachPath o.path := by
  unfold Cursor.parse at h
  cases hrun : run o.limit .initial c c.stream with
  | refused y stop' =>
    rw [hrun] at h
    cases h
    exact ⟨y, rfl, rfl⟩
  | accepted e stop' following =>
    rw [hrun] at h
    cases hobjection : o.mode.objection? following with
    | none => simp [hobjection] at h
    | some y =>
      simp only [hobjection] at h
      cases h
      exact ⟨y, hobjection, rfl⟩

/-- **A run fails further on**: at a token, or where none begins. -/
theorem exists_place_of_run {limit : Option Nat} {s : State} {c : Cursor} {mode : Mode}
    {x : ParseError} (h : (run limit s c c.stream).error? mode = some x) :
    ∃ here, c.skipGap.Onward here ∧ x.location = here.location := by
  cases run_ends limit s c with
  | refuses hr =>
    rw [hr.run] at h
    cases h
    exact ⟨_, hr.reads.onward_skipGap, congrArg Position.location (Cursor.start_of_next hr.next)⟩
  | breaks hb =>
    rw [hb.run] at h
    cases h
    exact ⟨_, hb.reads.onward_skipGap, (Cursor.of_next_error hb.next).2.1⟩
  | @accepts e ts stop t after ha =>
    rw [ha.run] at h
    -- Only what follows the expression can be in the way, and only strictly.
    cases mode with
    | lenient => cases h
    | strict =>
      by_cases ht : t.kind = .endOfInput
      · rw [Cursor.stream_of_end ha.next ht] at h
        cases h
      · rw [Cursor.stream_of_token ha.next ht] at h
        cases h
        exact ⟨_, ha.reads.onward_skipGap, congrArg Position.location (Cursor.start_of_next ha.next)⟩

end Parser

end EL
