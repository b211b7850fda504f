import NodeFormula.Source.Span
import NodeFormula.Text.Blank

/-!
# Cursors

A cursor is what is left of a source while it is read, with the byte offset it starts at. `c ≤ d` says
that `d` is reached from `c` by reading on, and `c < d` that at least one character was read. Reading
steps carry these facts, which is what makes recursion over a source end.
-/

namespace NodeFormula

/-- The unread part of a source and its byte offset. -/
structure Cursor where
  offset : Nat
  rest : List Char
deriving DecidableEq, Repr

namespace Cursor

/-- The start of a source. -/
def ofString (source : String) : Cursor := ⟨0, source.toList⟩

/-- The unread text. -/
def text (c : Cursor) : String := String.ofList c.rest

/-- The span from one cursor to another. -/
def spanTo (c d : Cursor) : Span := ⟨c.offset, d.offset⟩

instance : LE Cursor where
  le c d := ∃ s, c.rest = s ++ d.rest ∧ d.offset = c.offset + utf8Length s

instance : LT Cursor where
  lt c d := ∃ s, s ≠ [] ∧ c.rest = s ++ d.rest ∧ d.offset = c.offset + utf8Length s

protected theorem le_refl (c : Cursor) : c ≤ c := ⟨[], rfl, rfl⟩

protected theorem le_of_lt {c d : Cursor} (h : c < d) : c ≤ d :=
  let ⟨s, _, hs⟩ := h
  ⟨s, hs⟩

protected theorem le_trans {c d e : Cursor} (h : c ≤ d) (k : d ≤ e) : c ≤ e := by
  obtain ⟨s, hs, ho⟩ := h
  obtain ⟨t, ht, hp⟩ := k
  exact ⟨s ++ t, by simp [hs, ht], by simp [hp, ho, Nat.add_assoc]⟩

protected theorem lt_of_lt_of_le {c d e : Cursor} (h : c < d) (k : d ≤ e) : c < e := by
  obtain ⟨s, hne, hs, ho⟩ := h
  obtain ⟨t, ht, hp⟩ := k
  exact ⟨s ++ t, by simp [hne], by simp [hs, ht], by simp [hp, ho, Nat.add_assoc]⟩

protected theorem lt_of_le_of_lt {c d e : Cursor} (h : c ≤ d) (k : d < e) : c < e := by
  obtain ⟨s, hs, ho⟩ := h
  obtain ⟨t, hne, ht, hp⟩ := k
  exact ⟨s ++ t, by simp [hne], by simp [hs, ht], by simp [hp, ho, Nat.add_assoc]⟩

protected theorem lt_trans {c d e : Cursor} (h : c < d) (k : d < e) : c < e :=
  Cursor.lt_of_lt_of_le h (Cursor.le_of_lt k)

/-- Reading on leaves less to read. -/
theorem length_lt {c d : Cursor} (h : c < d) : d.rest.length < c.rest.length := by
  obtain ⟨s, hne, hs, _⟩ := h
  have : 0 < s.length := List.length_pos_iff.2 hne
  simp [hs]
  omega

/-- The cursor after the characters `s`, when `c` starts with them and `rest` follows. -/
def after (c : Cursor) (s rest : List Char) : Cursor := ⟨c.offset + utf8Length s, rest⟩

theorem le_after {c : Cursor} {s rest : List Char} (h : c.rest = s ++ rest) :
    c ≤ c.after s rest := ⟨s, h, rfl⟩

theorem lt_after {c : Cursor} {s rest : List Char} (h : c.rest = s ++ rest) (hne : s ≠ []) :
    c < c.after s rest := ⟨s, hne, h, rfl⟩

/-- Read the characters up to the first that does not satisfy `p`. -/
def skipWhile (c : Cursor) (p : Char → Bool) : Cursor :=
  c.after (c.rest.takeWhile p) (c.rest.dropWhile p)

theorem le_skipWhile (c : Cursor) (p : Char → Bool) : c ≤ c.skipWhile p :=
  le_after (List.takeWhile_append_dropWhile).symm

/-- Skip white space. -/
def trim (c : Cursor) : Cursor := c.skipWhile Text.blank

theorem le_trim (c : Cursor) : c ≤ c.trim := c.le_skipWhile _

end Cursor

end NodeFormula
