import Mathlib.Algebra.Ring.Nat
import Mathlib.Order.Bounds.Basic
import NodeFormula.Proofs.Spans.Outline
import NodeFormula.Source.Excerpt

/-!
# Lines, columns and excerpts of a text

Lines and columns are faithful: later offsets have later places, and an offset is found again from its
line and column. An excerpt is made from slices of the text. `render?` is the rendering of an error
with every slice checked: it has to start and end between two characters, in order. None of them
fails, whatever the span of the error is, and the result is the same (`render?_eq_some`).

The proofs split a text into what stands before an offset and what stands after it. The line around
the offset is then the last line before it with the first line after it (`lines_of_append`).
-/

namespace NodeFormula

/-- An offset stands between two characters of a text, or at one of its ends. -/
abbrev Boundary (text : String) (offset : Nat) : Prop := String.Pos.Raw.IsValid text ⟨offset⟩

/-- An offset is between two characters exactly if the text splits there. Proofs use the two parts
and not the offset. -/
theorem boundary_iff {text : String} {offset : Nat} : Boundary text offset ↔
    ∃ before after, text.toList = before ++ after ∧ utf8Length before = offset := by
  rw [Boundary, String.Pos.Raw.isValid_iff_exists_append]
  constructor
  · rintro ⟨s₁, s₂, rfl, heq⟩
    refine ⟨s₁.toList, s₂.toList, String.toList_append, ?_⟩
    rw [utf8Length_toList]
    exact (congrArg String.Pos.Raw.byteIdx heq).symm
  · rintro ⟨before, after, hsplit, rfl⟩
    refine ⟨String.ofList before, String.ofList after, ?_, ?_⟩
    · rw [← String.ofList_append, ← hsplit]
      exact String.ofList_toList.symm
    · rw [utf8Length_eq_utf8ByteSize_ofList]
      rfl

theorem boundary_zero (text : String) : Boundary text 0 := boundary_iff.2 ⟨[], _, rfl, rfl⟩

theorem Boundary.le_size {text : String} {offset : Nat} (h : Boundary text offset) :
    offset ≤ text.utf8ByteSize := by
  obtain ⟨before, after, hsplit, rfl⟩ := boundary_iff.1 h
  rw [← utf8Length_toList, hsplit, utf8Length_append]
  omega

/-- Two boundaries cut a text into three parts, the middle one of which has as many bytes as lie
between them. -/
theorem exists_between {text : String} {a b : Nat} (ha : Boundary text a) (hb : Boundary text b)
    (hle : a ≤ b) :
    ∃ before mid after, text.toList = before ++ mid ++ after ∧ utf8Length before = a ∧
      utf8Length before + utf8Length mid = b := by
  obtain ⟨before, after, hsplit, rfl⟩ := boundary_iff.1 ha
  obtain ⟨before', after', hsplit', rfl⟩ := boundary_iff.1 hb
  obtain ⟨mid, rfl, -⟩ | ⟨mid, rfl, -⟩ := List.append_eq_append_iff.1 (hsplit.symm.trans hsplit')
  · exact ⟨before, mid, after', hsplit', rfl, (utf8Length_append ..).symm⟩
  · -- What takes fewer bytes is no longer, so nothing is between.
    have hmid : mid = [] := by
      by_contra hne
      have := utf8Length_pos hne
      rw [utf8Length_append] at hle
      omega
    subst hmid
    refine ⟨before', [], after', ?_, ?_, ?_⟩ <;> simp [hsplit']

namespace Excerpt

variable {text : String} {before after : List Char}

/-! ### Splitting at a byte -/

theorem splitBytes_zero (cs : List Char) : splitBytes 0 cs = ([], cs) := by
  cases cs with
  | nil => rfl
  | cons c cs => rw [splitBytes, if_neg (Nat.not_le.2 c.utf8Size_pos)]

theorem splitBytes_append_left (p q : List Char) (n : Nat) :
    splitBytes (utf8Length p + n) (p ++ q) = (p ++ (splitBytes n q).1, (splitBytes n q).2) := by
  induction p with
  | nil => simp
  | cons c p ih =>
    have hn : c.utf8Size + utf8Length p + n - c.utf8Size = utf8Length p + n := by omega
    rw [List.cons_append, splitBytes, utf8Length_cons, if_pos (by omega), hn, ih]
    rfl

/-- A text is split at a boundary into what stands before it and what stands after it. -/
theorem splitBytes_boundary (before after : List Char) :
    splitBytes (utf8Length before) (before ++ after) = (before, after) := by
  have h := splitBytes_append_left before after 0
  rwa [splitBytes_zero, Nat.add_zero, List.append_nil] at h

/-- Splitting takes no more bytes than it is told to, as it stops before a character that does not
fit. -/
theorem utf8Length_splitBytes_le (n : Nat) (cs : List Char) :
    utf8Length (splitBytes n cs).1 ≤ n := by
  induction cs generalizing n with
  | nil => exact Nat.zero_le n
  | cons c cs ih =>
    rw [splitBytes]
    split
    next hc =>
      have := ih (n - c.utf8Size)
      simp only [utf8Length_cons]
      omega
    next => exact Nat.zero_le n

/-- Splitting inside the first part of a text does not depend on the second. -/
theorem splitBytes_append_of_lt {n : Nat} {p q : List Char} (h : n < utf8Length p) :
    (splitBytes n (p ++ q)).1 = (splitBytes n p).1 := by
  induction p generalizing n with
  | nil => exact absurd h (Nat.not_lt_zero n)
  | cons c p ih =>
    rw [List.cons_append, splitBytes, splitBytes]
    split
    next hc =>
      rw [utf8Length_cons] at h
      simp only [ih (by omega : n - c.utf8Size < utf8Length p)]
    next => rfl

theorem splitBytes_of_le {n : Nat} {p : List Char} (h : utf8Length p ≤ n) (q : List Char) :
    (splitBytes n (p ++ q)).1 = p ++ (splitBytes (n - utf8Length p) q).1 := by
  have hsplit := splitBytes_append_left p q (n - utf8Length p)
  rw [Nat.add_sub_cancel' h] at hsplit
  rw [hsplit]

theorem splitBytes_whole {n : Nat} {p : List Char} (h : utf8Length p ≤ n) :
    (splitBytes n p).1 = p := by
  have hsplit := splitBytes_of_le h []
  rwa [List.append_nil, splitBytes, List.append_nil] at hsplit

/-- A cut is not moved by what stands behind, if it is kept from passing the end. -/
theorem splitBytes_min (n : Nat) (p q : List Char) :
    (splitBytes (min n (utf8Length p)) (p ++ q)).1 = (splitBytes n p).1 := by
  obtain hlt | hle := Nat.lt_or_ge n (utf8Length p)
  · rw [Nat.min_eq_left hlt.le, splitBytes_append_of_lt hlt]
  · rw [Nat.min_eq_right hle, splitBytes_boundary, splitBytes_whole hle]

theorem min_utf8Length_splitBytes (n : Nat) (p q : List Char) :
    min (utf8Length (splitBytes n (p ++ q)).1) (utf8Length p) = utf8Length (splitBytes n p).1 := by
  obtain hlt | hle := Nat.lt_or_ge n (utf8Length p)
  · rw [splitBytes_append_of_lt hlt]
    exact Nat.min_eq_left ((utf8Length_splitBytes_le n p).trans hlt.le)
  · rw [splitBytes_of_le hle, splitBytes_whole hle, utf8Length_append]
    exact Nat.min_eq_right (Nat.le_add_right ..)

/-- Go down from an offset to the next boundary. -/
def clampFrom (text : String) : Nat → Nat
  | 0 => 0
  | n + 1 => if Boundary text (n + 1) then n + 1 else clampFrom text n

/-- The boundary of a text that an offset stands for. -/
def clamp (text : String) (offset : Nat) : Nat := clampFrom text (min offset text.utf8ByteSize)

/-- Going down from an offset byte by byte leads to the last boundary that is not behind it. -/
theorem isGreatest_clampFrom (text : String) (n : Nat) :
    IsGreatest {o | o ≤ n ∧ Boundary text o} (clampFrom text n) := by
  induction n with
  | zero => exact ⟨⟨Nat.le_refl 0, boundary_zero text⟩, fun o ho => ho.1⟩
  | succ n ih =>
    rw [clampFrom]
    split
    next h => exact ⟨⟨Nat.le_refl _, h⟩, fun o ho => ho.1⟩
    next h =>
      refine ⟨⟨Nat.le_succ_of_le ih.1.1, ih.1.2⟩, fun o ho => ih.2 ⟨?_, ho.2⟩⟩
      refine Nat.le_of_lt_succ (Nat.lt_of_le_of_ne ho.1 ?_)
      rintro rfl
      exact h ho.2

/-- The boundary that an offset stands for is the greatest up to it. -/
theorem isGreatest_clamp (text : String) (offset : Nat) :
    IsGreatest {o | o ≤ offset ∧ Boundary text o} (clamp text offset) := by
  obtain ⟨⟨hle, hbound⟩, hmax⟩ := isGreatest_clampFrom text (min offset text.utf8ByteSize)
  refine ⟨⟨hle.trans (Nat.min_le_left ..), hbound⟩, fun o ho => hmax ⟨?_, ho.2⟩⟩
  exact Nat.le_min.2 ⟨ho.1, ho.2.le_size⟩

/-- Splitting a text at an offset splits it at the boundary that the offset stands for. -/
theorem isGreatest_splitBytes (text : String) (offset : Nat) :
    IsGreatest {o | o ≤ offset ∧ Boundary text o} (utf8Length (splitBytes offset text.toList).1) := by
  refine ⟨⟨utf8Length_splitBytes_le .., boundary_iff.2 ⟨_, _, (splitBytes_append ..).symm, rfl⟩⟩, ?_⟩
  rintro o ⟨hle, hbound⟩
  obtain ⟨before, after, hsplit, rfl⟩ := boundary_iff.1 hbound
  have h := splitBytes_append_left before after (offset - utf8Length before)
  rw [Nat.add_sub_cancel' hle] at h
  rw [hsplit, h, utf8Length_append]
  exact Nat.le_add_right ..

theorem clamp_eq (text : String) (offset : Nat) :
    clamp text offset = utf8Length (splitBytes offset text.toList).1 :=
  (isGreatest_clamp text offset).unique (isGreatest_splitBytes text offset)

/-! ### Lines -/

/-- The lines of a text: the pieces between its line breaks. -/
def lines (text : String) : List (List Char) := text.toList.splitOn '\n'

/-- The offset at which a line starts, which is counted from one. -/
def lineOffset (text : String) (row : Nat) : Nat :=
  (((lines text).take (row - 1)).map fun piece => utf8Length piece + 1).sum

/-- The offset of a line and column: the columns before it are those of characters of the line. -/
def offsetOf? (text : String) (place : Nat × Nat) : Option Nat :=
  (lines text)[place.1 - 1]?.bind fun piece =>
    if place.2 - 1 ≤ piece.length then
      some (lineOffset text place.1 + utf8Length (piece.take (place.2 - 1)))
    else none

theorem splitOn_cons (c : Char) (cs : List Char) : (c :: cs).splitOn '\n' =
    if c = '\n' then [] :: cs.splitOn '\n' else (cs.splitOn '\n').modifyHead (c :: ·) := by
  rw [List.splitOn, List.splitOnP_cons_eq_if_modifyHead]
  simp only [beq_iff_eq]
  rfl

/-- The first line of a text is what stands before its first line break, or the whole text if there
is none. -/
theorem splitOn_eq_cons (cs : List Char) : ∃ later, cs.splitOn '\n' = firstLine cs :: later := by
  induction cs with
  | nil => exact ⟨[], rfl⟩
  | cons c cs ih =>
    obtain ⟨later, hlater⟩ := ih
    by_cases hc : c = '\n'
    · refine ⟨cs.splitOn '\n', ?_⟩
      rw [splitOn_cons, if_pos hc, firstLine, List.takeWhile_cons_of_neg (by simp [hc])]
    · have hfirst : firstLine (c :: cs) = c :: firstLine cs :=
        List.takeWhile_cons_of_pos (by simp [hc])
      exact ⟨later, by rw [splitOn_cons, if_neg hc, hlater, hfirst, List.modifyHead_cons]⟩

theorem length_splitOn (cs : List Char) : (cs.splitOn '\n').length = cs.count '\n' + 1 := by
  induction cs with
  | nil => rfl
  | cons c cs ih =>
    rw [splitOn_cons]
    by_cases hc : c = '\n'
    · simp [hc, ih]
    · simp [hc, ih]

/-- The pieces take the bytes of the text, and each but the last is followed by a line break. -/
theorem sum_splitOn (cs : List Char) :
    ((cs.splitOn '\n').map fun piece => utf8Length piece + 1).sum = utf8Length cs + 1 := by
  induction cs with
  | nil => rfl
  | cons c cs ih =>
    rw [splitOn_cons]
    obtain ⟨later, hlater⟩ := splitOn_eq_cons cs
    by_cases hc : c = '\n'
    · have hsize : '\n'.utf8Size = 1 := rfl
      simp [hc, ih, hsize]
      omega
    · rw [hlater] at ih ⊢
      simp only [if_neg hc, List.modifyHead_cons, List.map_cons, List.sum_cons, utf8Length_cons] at ih ⊢
      omega

/-- What precedes the last line, which is nothing or ends in a line break. -/
def beforeLastLine (cs : List Char) : List Char := (cs.reverse.dropWhile (· != '\n')).reverse

theorem beforeLastLine_append (cs : List Char) : beforeLastLine cs ++ lastLine cs = cs := by
  rw [beforeLastLine, lastLine, ← List.reverse_append, List.takeWhile_append_dropWhile,
    List.reverse_reverse]

theorem newline_notMem_lastLine (cs : List Char) : '\n' ∉ lastLine cs := by
  intro h
  have hall := List.all_takeWhile (p := (· != '\n')) (l := cs.reverse)
  have := List.all_eq_true.1 hall _ (List.mem_reverse.1 h)
  simp at this

theorem beforeLastLine_cases (cs : List Char) :
    beforeLastLine cs = [] ∨ ∃ init, beforeLastLine cs = init ++ ['\n'] := by
  unfold beforeLastLine
  cases h : cs.reverse.dropWhile (· != '\n') with
  | nil => exact .inl rfl
  | cons c rest =>
    have hc := List.head_dropWhile_not (· != '\n') (l := cs.reverse) (by simp [h])
    simp only [h, List.head_cons] at hc
    have hc : c = '\n' := by simpa using hc
    exact .inr ⟨rest.reverse, by rw [List.reverse_cons, hc]⟩

theorem firstLine_append {mid : List Char} (h : '\n' ∉ mid) (after : List Char) :
    firstLine (mid ++ after) = mid ++ firstLine after :=
  List.takeWhile_append_of_pos fun _ hc => bne_iff_ne.2 fun heq => h (heq ▸ hc)

theorem lastLine_append (before : List Char) {mid : List Char} (h : '\n' ∉ mid) :
    lastLine (before ++ mid) = lastLine before ++ mid := by
  have hall : ∀ c ∈ mid.reverse, (c != '\n') = true := fun c hc =>
    bne_iff_ne.2 fun heq => h (heq ▸ List.mem_reverse.1 hc)
  rw [lastLine, List.reverse_append, List.takeWhile_append_of_pos hall, List.reverse_append,
    List.reverse_reverse, lastLine]

/-- Pieces of a text behind a line break: the piece that a place is in begins behind the last line
break before it, and there are as many earlier pieces as there are line breaks before. -/
theorem splitOn_append_of_notMem {head last : List Char} (hlast : '\n' ∉ last)
    (hhead : head = [] ∨ ∃ init, head = init ++ ['\n']) (after : List Char) : ∃ earlier later,
    (head ++ last ++ after).splitOn '\n' = earlier ++ (last ++ firstLine after) :: later ∧
    earlier.length = head.count '\n' ∧
    (earlier.map fun piece => utf8Length piece + 1).sum = utf8Length head := by
  obtain ⟨later, hlater⟩ := splitOn_eq_cons (last ++ after)
  rw [firstLine_append hlast] at hlater
  obtain rfl | ⟨init, rfl⟩ := hhead
  · exact ⟨[], later, hlater, rfl, rfl⟩
  · refine ⟨init.splitOn '\n', later, ?_, ?_, ?_⟩
    · rw [← hlater, List.append_assoc, List.append_assoc]
      exact List.splitOnP_append_cons _ _ (beq_self_eq_true '\n')
    · rw [length_splitOn, List.count_append]
      rfl
    · rw [sum_splitOn, utf8Length_append]
      rfl

/-- The line around an offset is the last line before it with the first line after it. The lines
before that one are as many as there are line breaks, and take the bytes up to it. -/
theorem splitOn_append (before after : List Char) : ∃ earlier later,
    (before ++ after).splitOn '\n' = earlier ++ (lastLine before ++ firstLine after) :: later ∧
    earlier.length = before.count '\n' ∧
    (earlier.map fun piece => utf8Length piece + 1).sum = utf8Length (beforeLastLine before) := by
  have hcount : before.count '\n' = (beforeLastLine before).count '\n' := by
    have h : (beforeLastLine before ++ lastLine before).count '\n' = _ := List.count_append
    rwa [beforeLastLine_append, List.count_eq_zero.2 (newline_notMem_lastLine before)] at h
  have hsplit := splitOn_append_of_notMem (newline_notMem_lastLine before)
    (beforeLastLine_cases before) after
  rwa [beforeLastLine_append, ← hcount] at hsplit

/-! ### Places -/

/-- An offset has the line and column of the boundary that it stands for. -/
theorem lineColumn_of_append (hsplit : text.toList = before ++ after) :
    lineColumn text (utf8Length before) = (line before, column before) := by
  rw [lineColumn, hsplit, splitBytes_boundary]

/-- Later characters have later places: they are in a later line, or in the same line and a later
column. -/
theorem line_column_append {mid : List Char} (hmid : mid ≠ []) (before : List Char) :
    Prod.Lex (· < ·) (· < ·) (line before, column before)
      (line (before ++ mid), column (before ++ mid)) := by
  by_cases hbreak : '\n' ∈ mid
  · have hcount := List.count_pos_iff.2 hbreak
    refine .left _ _ ?_
    rw [line, line, List.count_append]
    omega
  · have hlength := List.length_pos_iff.2 hmid
    have hline : line (before ++ mid) = line before := by
      rw [line, line, List.count_append, List.count_eq_zero.2 hbreak, Nat.add_zero]
    rw [hline]
    refine .right _ ?_
    rw [column, column, lastLine_append before hbreak, List.length_append]
    omega

theorem lineColumn_lt {a b : Nat} (ha : Boundary text a) (hb : Boundary text b) (hlt : a < b) :
    Prod.Lex (· < ·) (· < ·) (lineColumn text a) (lineColumn text b) := by
  obtain ⟨before, mid, after, hsplit, rfl, rfl⟩ := exists_between ha hb hlt.le
  have hmid : mid ≠ [] := by
    rintro rfl
    simp at hlt
  have hsplit' : text.toList = before ++ (mid ++ after) := by rw [hsplit, List.append_assoc]
  rw [← utf8Length_append, lineColumn_of_append hsplit, lineColumn_of_append hsplit']
  exact line_column_append hmid before

/-- The line of an offset, and the offset at which it starts. -/
theorem lines_of_append (hsplit : text.toList = before ++ after) :
    (lines text)[line before - 1]? = some (lastLine before ++ firstLine after) ∧
      lineOffset text (line before) = utf8Length (beforeLastLine before) := by
  obtain ⟨earlier, later, hlines, hlength, hsum⟩ := splitOn_append before after
  have hrow : line before - 1 = earlier.length := by
    rw [hlength, line, Nat.add_sub_cancel]
  rw [lineOffset, lines, hsplit, hlines, hrow]
  exact ⟨by simp, by rw [List.take_left, hsum]⟩

theorem utf8Length_beforeLastLine (before : List Char) :
    utf8Length (beforeLastLine before) + utf8Length (lastLine before) = utf8Length before := by
  rw [← utf8Length_append, beforeLastLine_append]

theorem offsetOf?_lineColumn {a : Nat} (ha : Boundary text a) :
    offsetOf? text (lineColumn text a) = some a := by
  obtain ⟨before, after, hsplit, rfl⟩ := boundary_iff.1 ha
  obtain ⟨hline, hoffset⟩ := lines_of_append hsplit
  have hcolumn : column before - 1 = (lastLine before).length := Nat.add_sub_cancel ..
  rw [lineColumn_of_append hsplit, offsetOf?, hline, hoffset]
  simp only [Option.bind_some, hcolumn, List.take_left, utf8Length_beforeLastLine]
  exact if_pos (by simp)

/-! ### Slices -/

/-- The characters of a text from one offset up to another. Both have to be boundaries, in order. -/
def slice? (text : String) (start stop : Nat) : Option (List Char) :=
  if Boundary text start ∧ Boundary text stop ∧ start ≤ stop then
    some (splitBytes (stop - start) (splitBytes start text.toList).2).1
  else none

theorem splitBytes_between {mid : List Char} (hsplit : text.toList = before ++ mid ++ after) :
    (splitBytes (utf8Length before + utf8Length mid - utf8Length before)
      (splitBytes (utf8Length before) text.toList).2).1 = mid := by
  rw [hsplit, List.append_assoc, splitBytes_boundary, Nat.add_sub_cancel_left, splitBytes_boundary]

/-- A slice lies between two parts of the text that take the bytes before and after it. -/
theorem slice?_eq_some_iff {start stop : Nat} {mid : List Char} :
    slice? text start stop = some mid ↔ ∃ before after, text.toList = before ++ mid ++ after ∧
      utf8Length before = start ∧ utf8Length before + utf8Length mid = stop := by
  unfold slice?
  constructor
  · intro h
    split at h
    next hvalid =>
      obtain ⟨before, part, after, hsplit, rfl, rfl⟩ :=
        exists_between hvalid.1 hvalid.2.1 hvalid.2.2
      rw [splitBytes_between hsplit] at h
      cases h
      exact ⟨before, after, hsplit, rfl, rfl⟩
    next => cases h
  · rintro ⟨before, after, hsplit, rfl, rfl⟩
    rw [if_pos, splitBytes_between hsplit]
    refine ⟨boundary_iff.2 ⟨before, mid ++ after, ?_, rfl⟩, boundary_iff.2 ⟨_, _, hsplit, ?_⟩, ?_⟩
    · rw [hsplit, List.append_assoc]
    · rw [utf8Length_append]
    · exact Nat.le_add_right ..

/-- The text of an error: its message, its place, its line, and carets under a part of the line. -/
def page (message file : String) (row col : Nat) (shown : List Char) (carets : Nat) : String :=
  let text := String.ofList shown
  let margin := String.ofList (List.replicate (toString row).length ' ')
  let mark := String.ofList (List.replicate (col - 1) ' ' ++ List.replicate carets '^')
  s!"error: {message}\n{margin}--> {file}:{row}:{col}\n{margin} |\n{row} | {text}\n" ++
    s!"{margin} | {mark}\n"

/-- The line and column of an offset, from slices of the text. -/
def lineColumn? (text : String) (offset : Nat) : Option (Nat × Nat) := do
  let stop := clamp text offset
  let before ← slice? text 0 stop
  let part ← slice? text (utf8Length (beforeLastLine before)) stop
  return (before.count '\n' + 1, part.length + 1)

/-- An error with its place and its line, marked by carets, from slices of the text. The end of the
span is brought between its start and the end of the line, which have to be in order. -/
def render? (text file : String) (error : SourceError) : Option String := do
  let start := clamp text error.span.start
  let (row, col) ← lineColumn? text start
  let before ← slice? text 0 start
  let after ← slice? text start text.utf8ByteSize
  let lineStart := utf8Length (beforeLastLine before)
  let lineEnd := if '\n' ∈ after then start + utf8Length (firstLine after) else text.utf8ByteSize
  let shown ← slice? text lineStart lineEnd
  if lineEnd < start then none
  else
    let stop := clamp text (max start (min error.span.stop lineEnd))
    let marked ← slice? text start stop
    return page error.message file row col shown (max 1 marked.length)

/-! ### Rendering -/

section
variable (hsplit : text.toList = before ++ after)
include hsplit

theorem slice?_before : slice? text 0 (utf8Length before) = some before :=
  slice?_eq_some_iff.2 ⟨[], after, hsplit, rfl, Nat.zero_add _⟩

theorem slice?_after : slice? text (utf8Length before) text.utf8ByteSize = some after := by
  refine slice?_eq_some_iff.2 ⟨before, [], ?_, rfl, ?_⟩
  · rw [hsplit, List.append_nil]
  · rw [← utf8Length_append, ← hsplit, utf8Length_toList]

theorem slice?_lastLine :
    slice? text (utf8Length (beforeLastLine before)) (utf8Length before) = some (lastLine before) := by
  refine slice?_eq_some_iff.2 ⟨beforeLastLine before, after, ?_, rfl, utf8Length_beforeLastLine before⟩
  rw [beforeLastLine_append, hsplit]

/-- The end of the line around an offset. -/
theorem lineEnd_eq : (if '\n' ∈ after then utf8Length before + utf8Length (firstLine after)
    else text.utf8ByteSize) = utf8Length before + utf8Length (firstLine after) := by
  split
  next => rfl
  next hbreak =>
    have hfirst := firstLine_append hbreak []
    rw [List.append_nil] at hfirst
    rw [hfirst, ← utf8Length_toList, hsplit, utf8Length_append]
    simp [firstLine]

theorem slice?_line : slice? text (utf8Length (beforeLastLine before))
    (utf8Length before + utf8Length (firstLine after)) =
      some (lastLine before ++ firstLine after) := by
  refine slice?_eq_some_iff.2 ⟨beforeLastLine before, after.dropWhile (· != '\n'), ?_, rfl, ?_⟩
  · rw [← List.append_assoc, beforeLastLine_append, List.append_assoc, firstLine,
      List.takeWhile_append_dropWhile, hsplit]
  · rw [utf8Length_append, ← Nat.add_assoc, utf8Length_beforeLastLine]

theorem clamp_boundary : clamp text (utf8Length before) = utf8Length before := by
  rw [clamp_eq, hsplit, splitBytes_boundary]

theorem lineColumn?_boundary :
    lineColumn? text (utf8Length before) = some (line before, column before) := by
  simp only [lineColumn?, clamp_boundary hsplit, slice?_before hsplit, slice?_lastLine hsplit,
    Option.bind_eq_bind, Option.bind_some]
  rfl

/-- The carets mark the characters up to the end of the span or of the line. -/
theorem clamp_marked (stop : Nat) :
    clamp text (max (utf8Length before) (min stop (utf8Length before + utf8Length (firstLine after)))) =
      utf8Length before +
        utf8Length (splitBytes (stop - utf8Length before) (firstLine after)).1 := by
  have hbytes :
      max (utf8Length before) (min stop (utf8Length before + utf8Length (firstLine after))) =
        utf8Length before + min (stop - utf8Length before) (utf8Length (firstLine after)) := by
    omega
  have hcut := splitBytes_min (stop - utf8Length before) (firstLine after)
    (after.dropWhile (· != '\n'))
  rw [firstLine, List.takeWhile_append_dropWhile] at hcut
  rw [clamp_eq, hsplit, hbytes, splitBytes_append_left, utf8Length_append]
  exact congrArg (utf8Length before + utf8Length ·) hcut

/-- The end of the marked part: the end of the span, rounded down, but at most the end of the line
and at least the start of the span. In terms of the line it is a split by bytes. -/
theorem max_min_clamp (stop : Nat) :
    max (utf8Length before)
        (min (clamp text stop) (utf8Length before + utf8Length (firstLine after))) =
      utf8Length before +
        utf8Length (splitBytes (stop - utf8Length before) (firstLine after)).1 := by
  obtain hle | hle := Nat.le_total stop (utf8Length before)
  · -- The span ends before it starts.
    have hclamp := (isGreatest_clamp text stop).1.1
    rw [Nat.sub_eq_zero_of_le hle, splitBytes_zero, utf8Length_nil]
    omega
  · have hcut := min_utf8Length_splitBytes (stop - utf8Length before) (firstLine after)
      (after.dropWhile (· != '\n'))
    rw [firstLine, List.takeWhile_append_dropWhile, ← firstLine] at hcut
    rw [clamp_eq, hsplit, splitBytes_of_le hle, utf8Length_append]
    omega

theorem slice?_marked (n : Nat) :
    slice? text (utf8Length before)
      (utf8Length before + utf8Length (splitBytes n (firstLine after)).1) =
        some (splitBytes n (firstLine after)).1 := by
  refine slice?_eq_some_iff.2
    ⟨before, (splitBytes n (firstLine after)).2 ++ after.dropWhile (· != '\n'), ?_, rfl, rfl⟩
  rw [List.append_assoc, ← List.append_assoc (splitBytes ..).1, splitBytes_append, firstLine,
    List.takeWhile_append_dropWhile, hsplit]

end

/-- What stands before and after the boundary of an error's start, and the excerpt that they make. -/
theorem render_eq_page (text file : String) (error : SourceError) : ∃ before after,
    text.toList = before ++ after ∧ clamp text error.span.start = utf8Length before ∧
    render text file error = page error.message file (line before) (column before)
      (lastLine before ++ firstLine after)
      (max 1 (splitBytes (error.span.stop - utf8Length before) (firstLine after)).1.length) :=
  ⟨_, _, (splitBytes_append error.span.start text.toList).symm, clamp_eq .., rfl⟩

/-- Whatever the span of an error is, every slice of the text is one between characters. -/
theorem render?_eq_some (text file : String) (error : SourceError) :
    render? text file error = some (render text file error) := by
  obtain ⟨before, after, hsplit, hstart, hrender⟩ := render_eq_page text file error
  rw [hrender]
  simp only [render?, hstart, lineColumn?_boundary hsplit, slice?_before hsplit, slice?_after hsplit,
    lineEnd_eq hsplit, slice?_line hsplit, clamp_marked hsplit, slice?_marked hsplit,
    Option.bind_eq_bind, Option.bind_some]
  rw [if_neg (Nat.not_lt.2 (Nat.le_add_right ..))]
  rfl

/-- Later boundaries have later places, and a boundary is found again from its line and column. An
error is shown from slices between characters, whatever its span is: the whole line that holds the
start of the span, and under it, from the column of the start on, a caret for each character up to
the end of the span or of the line, and at least one. So the carets reach at most one column past the
line. -/
theorem excerpts_faithful (text : String) :
    (∀ a b, Boundary text a → Boundary text b → a < b →
      Prod.Lex (· < ·) (· < ·) (lineColumn text a) (lineColumn text b)) ∧
    (∀ a, Boundary text a → offsetOf? text (lineColumn text a) = some a) ∧
    ∀ (file : String) (error : SourceError),
      render? text file error = some (render text file error) ∧
      ∃ start stop row col shown marked,
        IsGreatest {o | o ≤ error.span.start ∧ Boundary text o} start ∧
        IsGreatest {o | o ≤ error.span.stop ∧ Boundary text o} stop ∧
        lineColumn text start = (row, col) ∧
        (lines text)[row - 1]? = some shown ∧
        slice? text start (max start (min stop (lineOffset text row + utf8Length shown))) =
          some marked ∧
        render text file error = page error.message file row col shown (max 1 marked.length) ∧
        col - 1 + max 1 marked.length ≤ shown.length + 1 := by
  refine ⟨fun _ _ => lineColumn_lt, fun _ => offsetOf?_lineColumn, fun file error =>
    ⟨render?_eq_some text file error, ?_⟩⟩
  obtain ⟨before, after, hsplit, hstart, hrender⟩ := render_eq_page text file error
  obtain ⟨hline, hoffset⟩ := lines_of_append hsplit
  have hend : lineOffset text (line before) + utf8Length (lastLine before ++ firstLine after) =
      utf8Length before + utf8Length (firstLine after) := by
    rw [hoffset, utf8Length_append, ← Nat.add_assoc, utf8Length_beforeLastLine]
  refine ⟨_, _, _, _, _, _, hstart ▸ isGreatest_clamp text error.span.start,
    isGreatest_clamp text error.span.stop, lineColumn_of_append hsplit, hline, ?_, hrender, ?_⟩
  · rw [hend, max_min_clamp hsplit]
    exact slice?_marked hsplit _
  · have hmarked := congrArg List.length
      (splitBytes_append (error.span.stop - utf8Length before) (firstLine after))
    rw [List.length_append] at hmarked
    rw [column, Nat.add_sub_cancel, List.length_append]
    omega

/-- A text of two lines with letters of two bytes, and two places in it. The excerpt for a span that
starts inside such a letter and ends far past the text is made without a look-up that fails. -/
theorem excerpts_faithful_accented :
    Boundary "é=\naé" 4 ∧ Boundary "é=\naé" 5 ∧ ¬ Boundary "é=\naé" 6 ∧
      Prod.Lex (· < ·) (· < ·) (lineColumn "é=\naé" 4) (lineColumn "é=\naé" 5) ∧
      offsetOf? "é=\naé" (lineColumn "é=\naé" 5) = some 5 ∧
      render? "é=\naé" "f" ⟨"m", ⟨6, 90⟩⟩ = some (render "é=\naé" "f" ⟨"m", ⟨6, 90⟩⟩) := by
  have hfour : Boundary "é=\naé" 4 := by decide
  have hfive : Boundary "é=\naé" 5 := by decide
  obtain ⟨hlt, hoffset, hrender⟩ := excerpts_faithful "é=\naé"
  exact ⟨hfour, hfive, by decide, hlt 4 5 hfour hfive (by decide), hoffset 5 hfive,
    (hrender "f" ⟨"m", ⟨6, 90⟩⟩).1⟩

end Excerpt

end NodeFormula
