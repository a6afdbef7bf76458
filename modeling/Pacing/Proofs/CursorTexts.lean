import Mathlib
import Pacing.Cursor.Text
import Pacing.Proofs.Numerals

/-!
# Texts that spell cursors

A text spells a cursor if it is a timestamp, a hyphen and a sequence number. The hyphen is also the
minus sign of a timestamp, but never a part of a sequence number, so a text has one such division at
most: the one at its last hyphen. Cursors have many spellings, and one that is written.
-/

namespace Pacing.Cursor

variable {cs before after : List Char} {text : String}

/-! ## The last hyphen -/

/-- A text is not split exactly if the separator is not in it. -/
theorem splitLast?_eq_none_iff {sep : Char} : splitLast? sep cs = none ↔ sep ∉ cs := by
  induction cs with
  | nil => simp [splitLast?]
  | cons c cs ih =>
    rw [List.mem_cons, not_or, ← ih, splitLast?]
    split
    · rename_i hsplit
      simp [hsplit]
    · rename_i hsplit
      simp [hsplit, eq_comm]

/-- A text is split at a separator that none follows. -/
theorem splitLast?_append {sep : Char} (h : sep ∉ after) :
    splitLast? sep (before ++ sep :: after) = some (before, after) := by
  induction before with
  | nil => simp [splitLast?, splitLast?_eq_none_iff.mpr h]
  | cons c before ih => simp [splitLast?, ih]

/-- A text splits at its last separator. -/
theorem append_of_splitLast? {sep : Char} (h : splitLast? sep cs = some (before, after)) :
    cs = before ++ sep :: after := by
  induction cs generalizing before with
  | nil => cases h
  | cons c cs ih =>
    rw [splitLast?] at h
    split at h
    · rename_i hsplit
      cases h
      rw [ih hsplit, List.cons_append]
    · split at h
      · rename_i hc
        cases h
        rw [hc, List.nil_append]
      · cases h

/-! ## Spellings -/

/-- A text is a timestamp, a hyphen and a sequence number: numerals for numbers within their widths,
of which only the timestamp may have a minus sign. -/
structure Spells (text before after : String) (ts : Int) (seq : Nat) : Prop where
  text_eq : text = before ++ "-" ++ after
  before_stands : Numeral.Signed before.toList ts
  after_stands : Numeral.Unsigned after.toList seq
  minValue_le_ts : -9223372036854775808 ≤ ts
  ts_le_maxValue : ts ≤ 9223372036854775807
  seq_lt_size : seq < 4294967296

/-- The characters that are read as a cursor are those of its timestamp, a hyphen and those of its
sequence number. -/
theorem ofChars?_eq_some_iff {c : Cursor} : ofChars? cs = some c ↔
    ∃ before after, cs = before ++ '-' :: after ∧
      Numeral.Signed before c.ts.toInt ∧ Numeral.Unsigned after c.seq.toNat := by
  constructor
  · intro h
    unfold ofChars? at h
    obtain ⟨⟨before, after⟩, hsplit, h⟩ := Option.bind_eq_some_iff.mp h
    obtain ⟨ts, hts, h⟩ := Option.bind_eq_some_iff.mp h
    obtain ⟨seq, hseq, h⟩ := Option.bind_eq_some_iff.mp h
    cases h
    exact ⟨before, after, append_of_splitLast? hsplit,
      Numeral.int64?_eq_some_iff.mp hts, Numeral.uint32?_eq_some_iff.mp hseq⟩
  · rintro ⟨before, after, rfl, hts, hseq⟩
    simp [ofChars?, splitLast?_append hseq.minus_not_mem, Numeral.int64?_eq_some_iff.mpr hts,
      Numeral.uint32?_eq_some_iff.mpr hseq]

/-- A text is parsed as what its characters are read as. -/
theorem parse_eq_ok_iff {c : Cursor} : parse text = .ok c ↔ ofChars? text.toList = some c := by
  unfold parse
  split
  · rename_i hread
    simp [hread]
  · rename_i hread
    simp [hread]

namespace Spells

variable {before after before' after' : String} {ts ts' : Int} {seq seq' : Nat}

/-- A text that spells a cursor is a timestamp, a hyphen and a sequence number. -/
theorem toList_eq (h : Spells text before after ts seq) :
    text.toList = before.toList ++ '-' :: after.toList := by
  rw [h.text_eq]
  simp

/-- A text that spells a cursor is split at the hyphen between its two numbers. -/
theorem splitLast?_eq (h : Spells text before after ts seq) :
    splitLast? '-' text.toList = some (before.toList, after.toList) := by
  rw [h.toList_eq, splitLast?_append h.after_stands.minus_not_mem]

/-- A text is divided in one way. -/
theorem eq (h : Spells text before after ts seq) (h' : Spells text before' after' ts' seq') :
    before' = before ∧ after' = after := by
  have hsplit := h'.splitLast?_eq
  rw [h.splitLast?_eq, Option.some.injEq, Prod.mk.injEq, String.toList_inj, String.toList_inj]
    at hsplit
  exact ⟨hsplit.1.symm, hsplit.2.symm⟩

/-- What a text spells is read. -/
theorem exists_parse_eq (h : Spells text before after ts seq) :
    ∃ c, parse text = .ok c ∧ c.ts.toInt = ts ∧ c.seq.toNat = seq := by
  obtain ⟨htext, hbefore, hafter, hlow, hhigh, hsize⟩ := h
  have hts : (Int64.ofInt ts).toInt = ts :=
    Int64.toInt_ofInt_of_le hlow (Int.lt_add_one_of_le hhigh)
  have hseq : (UInt32.ofNat seq).toNat = seq := UInt32.toNat_ofNat_of_lt' hsize
  refine ⟨⟨.ofInt ts, .ofNat seq⟩, ?_, hts, hseq⟩
  rw [parse_eq_ok_iff, ofChars?_eq_some_iff]
  refine ⟨before.toList, after.toList, by rw [htext]; simp, ?_, ?_⟩
  · rwa [hts]
  · rwa [hseq]

/-- A spelling is the written one exactly if both of its numerals are canonical. -/
theorem render_eq_iff {c : Cursor} (h : Spells text before after c.ts.toInt c.seq.toNat) :
    c.render = text ↔
      Numeral.isCanonical before.toList = true ∧ Numeral.isCanonical after.toList = true := by
  rw [← h.before_stands.ofInt_eq_iff, ← h.after_stands.ofNat_eq_iff, ← String.toList_inj,
    h.toList_eq, render, String.toList_ofList, toChars]
  constructor
  · intro heq
    have hsplit := h.splitLast?_eq
    rw [h.toList_eq, ← heq, splitLast?_append (Numeral.unsigned_ofNat _).minus_not_mem,
      Option.some.injEq, Prod.mk.injEq] at hsplit
    exact hsplit
  · rintro ⟨hbefore, hafter⟩
    rw [hbefore, hafter]

end Spells

/-- What is read is spelled by the text. -/
theorem exists_spells {c : Cursor} (h : parse text = .ok c) :
    ∃ before after, Spells text before after c.ts.toInt c.seq.toNat := by
  rw [parse_eq_ok_iff, ofChars?_eq_some_iff] at h
  obtain ⟨before, after, htext, hbefore, hafter⟩ := h
  refine ⟨.ofList before, .ofList after, ?_, ?_, ?_, c.ts.minValue_le_toInt, c.ts.toInt_le,
    c.seq.toNat_lt⟩
  · rw [← String.toList_inj, htext]
    simp
  · rwa [String.toList_ofList]
  · rwa [String.toList_ofList]

/-- A cursor is parsed from the text that it is rendered as. -/
theorem parse_render (c : Cursor) : parse c.render = .ok c := by
  rw [parse_eq_ok_iff, render, String.toList_ofList, ofChars?_eq_some_iff]
  exact ⟨_, _, rfl, Numeral.signed_ofInt _, Numeral.unsigned_ofNat _⟩

/-- No two cursors are rendered alike. -/
theorem render_inj {c d : Cursor} : c.render = d.render ↔ c = d := by
  constructor
  · intro h
    have hread := parse_render c
    rw [h, parse_render] at hread
    exact (Except.ok.inj hread).symm
  · rintro rfl
    rfl

/-- Every cursor is read back from the text that it is written as, so that no two cursors are
written alike. A text is read as a cursor exactly if it spells one. Then it does so by one division
only; the cursor has the timestamp and the sequence number that the two numerals stand for, and is
written as that same text exactly if both of them are canonical. -/
theorem reads_what_texts_spell :
    (∀ c, parse (render c) = .ok c) ∧
    (∀ c d : Cursor, c.render = d.render ↔ c = d) ∧
    ∀ text : String,
      ((∃ c, parse text = .ok c) ↔ ∃ before after ts seq, Spells text before after ts seq) ∧
      ∀ before after ts seq, Spells text before after ts seq →
        (∀ before' after' ts' seq', Spells text before' after' ts' seq' →
          before' = before ∧ after' = after) ∧
        ∃ c, parse text = .ok c ∧ c.ts.toInt = ts ∧ c.seq.toNat = seq ∧
          (c.render = text ↔
            Numeral.isCanonical before.toList = true ∧
              Numeral.isCanonical after.toList = true) := by
  refine ⟨parse_render, fun c d => render_inj, fun text => ⟨⟨?_, ?_⟩, ?_⟩⟩
  · rintro ⟨c, h⟩
    obtain ⟨before, after, hspells⟩ := exists_spells h
    exact ⟨before, after, _, _, hspells⟩
  · rintro ⟨before, after, ts, seq, hspells⟩
    obtain ⟨c, h, -⟩ := hspells.exists_parse_eq
    exact ⟨c, h⟩
  · intro before after ts seq hspells
    obtain ⟨c, h, rfl, rfl⟩ := hspells.exists_parse_eq
    exact ⟨fun before' after' ts' seq' => hspells.eq, c, h, rfl, rfl, hspells.render_eq_iff⟩

-- A minus sign before zero, more than one hyphen, and the least timestamp.
example : parse "-0-+00" = .ok ⟨0, 0⟩ ∧ parse "5--1" = .error ⟨"5--1"⟩ ∧
    parse "-9223372036854775808-4294967295" = .ok ⟨Int64.minValue, 4294967295⟩ := by
  decide +kernel

end Pacing.Cursor
