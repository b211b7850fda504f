import NodeFormula.Proofs.Parsing.Printing

/-!
# Reading lexemes back

`Ahead ls c` says that the cursor `c` has a text of the lexemes `ls` before it. Each reader of a token
takes the first lexeme if it is of the right kind, and leaves a cursor with the other lexemes ahead;
otherwise it fails softly. The exact text matters here only: the readers of expressions and statements
are then followed lexeme by lexeme.
-/

namespace NodeFormula

open Token

/-! ### Outcomes -/

namespace Reading

variable {α β : Type} {c : Cursor}

/-- Reading succeeds with a result that has a property. -/
def Gives (r : Reading α) (P : α → Prop) : Prop := ∃ a, r = .ok a ∧ P a

/-- Reading fails softly. -/
def Fails (r : Reading α) : Prop := ∃ f, r = .error f ∧ f.final = false

theorem Gives.mono {r : Reading α} {P Q : α → Prop} (h : r.Gives P) (hq : ∀ a, P a → Q a) :
    r.Gives Q :=
  let ⟨a, ha, hp⟩ := h
  ⟨a, ha, hq a hp⟩

/-- Two readings in a row succeed if the first does and the second does on every value that the first
may give. -/
theorem Gives.bind {r : Reading α} {f : α → Reading β} {P : α → Prop} {Q : β → Prop}
    (h : r.Gives P) (hf : ∀ a, P a → (f a).Gives Q) : Gives (r >>= f) Q := by
  obtain ⟨a, rfl, hp⟩ := h
  exact hf a hp

/-- A reading with a changed value succeeds, with what is known of the value changed along. -/
theorem Gives.map {r : Reading α} {f : α → β} {P : α → Prop} {Q : β → Prop} (h : r.Gives P)
    (hf : ∀ a, P a → Q (f a)) : Gives (Except.map f r) Q := by
  obtain ⟨a, rfl, hp⟩ := h
  exact ⟨f a, rfl, hf a hp⟩

theorem Gives.commit {r : Reading α} {P : α → Prop} (h : r.Gives P) : r.commit.Gives P := by
  obtain ⟨a, rfl, hp⟩ := h
  exact ⟨a, rfl, hp⟩

theorem Gives.expecting {r : Reading (Step c α)} {P : Step c α → Prop} (h : r.Gives P)
    (e : Expectation) : (r.expecting e).Gives P := by
  obtain ⟨a, rfl, hp⟩ := h
  exact ⟨a, rfl, hp⟩

theorem Gives.orElse {r : Reading (Step c α)} {P : Step c α → Prop} (h : r.Gives P)
    (other : Unit → Reading (Step c α)) : (r.orElse other).Gives P := by
  obtain ⟨a, rfl, hp⟩ := h
  exact ⟨a, rfl, hp⟩

theorem Gives.choice {r : Reading (Step c α)} {P : Step c α → Prop} (h : r.Gives P) :
    r.choice.Gives P := by
  obtain ⟨a, rfl, hp⟩ := h
  exact ⟨a, rfl, hp⟩

/-- An optional part that is there. -/
theorem Gives.optional {r : Reading (Step c α)} {P : Reach c (Option α) → Prop}
    (h : r.Gives fun s => P (s.map some).reach) : r.optional.Gives P := by
  obtain ⟨a, rfl, hp⟩ := h
  exact ⟨_, rfl, hp⟩

/-- A soft failure stops a sequence of readings and stays soft. -/
theorem Fails.bind {r : Reading α} (h : r.Fails) (f : α → Reading β) : Fails (r >>= f) := by
  obtain ⟨f, rfl, hf⟩ := h
  exact ⟨f, rfl, hf⟩

/-- Reading fails softly in its second part. -/
theorem Gives.bind_fails {r : Reading α} {f : α → Reading β} {P : α → Prop} (h : r.Gives P)
    (hf : ∀ a, P a → (f a).Fails) : Fails (r >>= f) := by
  obtain ⟨a, rfl, hp⟩ := h
  exact hf a hp

/-- A soft failure has no value to change. -/
theorem Fails.map {r : Reading α} (h : r.Fails) (f : α → β) : Fails (Except.map f r) := by
  obtain ⟨f, rfl, hf⟩ := h
  exact ⟨f, rfl, hf⟩

theorem Fails.expecting {r : Reading (Step c α)} (h : r.Fails) (e : Expectation) :
    (r.expecting e).Fails := by
  obtain ⟨f, rfl, hf⟩ := h
  exact ⟨_, rfl, hf⟩

theorem Fails.choice {r : Reading (Step c α)} (h : r.Fails) : r.choice.Fails := by
  obtain ⟨f, rfl, hf⟩ := h
  refine ⟨f.within ⟨c, none⟩, ?_, hf⟩
  simp [Reading.choice, hf]

theorem Fails.orElse {r : Reading (Step c α)} {other : Unit → Reading (Step c α)} (h : r.Fails)
    (ho : (other ()).Fails) : (r.orElse other).Fails := by
  obtain ⟨f, rfl, hf⟩ := h
  simp only [Reading.orElse, hf]
  exact ho

/-- After a soft failure the other reading is taken. -/
theorem Fails.orElse_gives {r : Reading (Step c α)} {other : Unit → Reading (Step c α)}
    {P : Step c α → Prop} (h : r.Fails) (ho : (other ()).Gives P) : (r.orElse other).Gives P := by
  obtain ⟨f, rfl, hf⟩ := h
  simp only [Reading.orElse, hf]
  exact ho

/-- An optional part that is not there. -/
theorem Fails.optional {r : Reading (Step c α)} (h : r.Fails) :
    r.optional = .ok (Reach.here c none) := by
  obtain ⟨f, rfl, hf⟩ := h
  simp [Reading.optional, hf]

end Reading

/-! ### Gaps -/

/-- A text that does not start with a gap. -/
def Solid (text : List Char) : Prop := ∀ x rest, text = x :: rest → spaceChar x = false ∧ x ≠ '#'

theorem skipSpace_of_solid {c : Cursor} (h : Solid c.rest) : skipSpace c = c := by
  unfold skipSpace
  split
  next => rfl
  next x rest hx =>
    obtain ⟨hs, hne⟩ := h x rest hx
    simp [hs, hne]

theorem skipSpace_of_space {c : Cursor} {x : Char} {rest : List Char} (h : c.rest = x :: rest)
    (hx : spaceChar x = true) : skipSpace c = skipSpace (c.after [x] rest) := by
  rw [skipSpace]
  split
  next h' => rw [h] at h'; cases h'
  next y rest' h' =>
    rw [h] at h'
    cases h'
    rw [if_pos hx]

/-- A gap is skipped up to its end, whatever blanks and comments it is made of. The induction is on
the gap, and the text behind it starts with neither. -/
theorem rest_skipSpace {gap text : List Char} (hg : Gap gap) (ht : Solid text) {c : Cursor}
    (hc : c.rest = gap ++ text) : (skipSpace c).rest = text := by
  induction hg generalizing c with
  | nil =>
    rw [List.nil_append] at hc
    rw [skipSpace_of_solid (hc ▸ ht), hc]
  | blank hx _ ih =>
    rw [skipSpace_of_space hc hx]
    exact ih rfl
  | @comment inside gap hinside _ ih =>
    have hc' : c.rest = '#' :: (inside ++ '\n' :: (gap ++ text)) := by simpa using hc
    have hdrop : (inside ++ '\n' :: (gap ++ text)).dropWhile commentChar = '\n' :: (gap ++ text) := by
      rw [List.dropWhile_append_of_pos hinside]
      rfl
    rw [skipSpace]
    split
    next h => rw [hc'] at h; cases h
    next x rest h =>
      rw [hc'] at h
      cases h
      rw [if_neg (by decide), if_pos ⟨rfl, by rw [hdrop]; rfl⟩]
      rw [skipSpace_of_space (x := '\n') hdrop rfl]
      exact ih rfl

/-! ### Characters -/

theorem solid_of_nameChar {x : Char} (h : nameChar x = true) : spaceChar x = false ∧ x ≠ '#' := by
  refine ⟨Bool.eq_false_iff.2 fun hs => ?_, ?_⟩
  · simp only [spaceChar, Bool.or_eq_true, beq_iff_eq] at hs
    rcases hs with ((rfl | rfl) | rfl) | rfl <;> cases h
  · rintro rfl
    cases h

theorem nameChar_of_nameStart {x : Char} (h : nameStart x = true) : nameChar x = true := by
  simp only [nameStart, nameChar, Char.isAlphanum, Bool.or_eq_true] at h ⊢
  exact h.imp_left .inl

theorem nameChar_of_isDigit {x : Char} (h : x.isDigit = true) : nameChar x = true := by
  simp only [nameChar, Char.isAlphanum, Bool.or_eq_true]
  exact .inl (.inr h)

/-- What can begin a name is no digit, so names and numbers are told apart by their first
character. -/
theorem isDigit_eq_false_of_nameStart {x : Char} (h : nameStart x = true) : x.isDigit = false := by
  refine Bool.eq_false_iff.2 fun hd => ?_
  have hle : x.val ≤ '9'.val := of_decide_eq_true (Bool.and_eq_true_iff.1 hd).2
  rcases Bool.or_eq_true_iff.1 h with h | h
  · rcases Bool.or_eq_true_iff.1 h with hupper | hlower
    · exact absurd (UInt32.le_trans (of_decide_eq_true hupper).1 hle) (by decide)
    · have hge : 'a'.val ≤ x.val := of_decide_eq_true (Bool.and_eq_true_iff.1 hlower).1
      exact absurd (UInt32.le_trans hge hle) (by decide)
  · obtain rfl := eq_of_beq h
    exact absurd hle (by decide)

theorem Gap.head {x : Char} {gap : List Char} (h : Gap (x :: gap)) : spaceChar x = true ∨ x = '#' := by
  cases h with
  | blank hx => exact .inl hx
  | comment => exact .inr rfl

/-! ### Lexemes ahead -/

/-- A lexeme that is read back as itself: its word is a word, and its string has no quote. -/
def Lexeme.Valid : Lexeme → Prop
  | .word s => isWord s = true
  | .quoted s => '"' ∉ s.toList
  | _ => True

/-- A lexeme starts with a character of names exactly if it is made of them. -/
theorem Lexeme.Valid.exists_first {l : Lexeme} (h : l.Valid) : ∃ x tail, l.chars = x :: tail ∧
    spaceChar x = false ∧ x ≠ '#' ∧ nameChar x = l.wordy := by
  cases l with
  | word s =>
    simp only [Lexeme.Valid, isWord] at h
    split at h
    next => cases h
    next x rest hs =>
      have hx := nameChar_of_nameStart (Bool.and_eq_true_iff.1 h).1
      exact ⟨x, rest, hs, (solid_of_nameChar hx).1, (solid_of_nameChar hx).2, hx⟩
  | digits n =>
    obtain ⟨x, rest, hd⟩ := List.exists_cons_of_ne_nil (Nat.toDigits_ne_nil (n := n) (b := 10))
    have hx : nameChar x = true := nameChar_of_isDigit
      (Nat.isDigit_of_mem_toDigits (by decide) (by decide) (hd ▸ List.mem_cons_self))
    exact ⟨x, rest, hd, (solid_of_nameChar hx).1, (solid_of_nameChar hx).2, hx⟩
  | negative n => exact ⟨'-', _, rfl, by decide, by decide, rfl⟩
  | quoted s => exact ⟨'"', _, rfl, by decide, by decide, rfl⟩
  | mark m => cases m <;> exact ⟨_, _, rfl, by decide, by decide, by decide⟩

/-- The first character of lexemes. -/
def firstChar (ls : List Lexeme) : Option Char := ls.head?.bind (·.chars.head?)

theorem firstChar_mark_ne (m : Mark) (ls : List Lexeme) {x : Char} (h : m.chars.head? ≠ some x) :
    firstChar (.mark m :: ls) ≠ some x := h

/-- A text of the given lexemes is before the cursor. -/
structure Ahead (ls : List Lexeme) (c : Cursor) : Prop where
  written : ∃ joined, Written joined ls c.rest
  valid : ∀ l ∈ ls, l.Valid

/-- A text of the given lexemes is before the cursor and starts with a lexeme. -/
inductive Here : List Lexeme → Cursor → Prop where
  | nil {c : Cursor} : c.rest = [] → Here [] c
  | cons {c : Cursor} {l : Lexeme} {ls : List Lexeme} {text : List Char} :
      c.rest = l.chars ++ text → Written l.wordy ls text → (∀ k ∈ l :: ls, k.Valid) →
      Here (l :: ls) c

/-- After a gap the first lexeme starts: skipping space from where reading has come to leads to the
first of the lexemes that are ahead. -/
theorem Ahead.skip {ls : List Lexeme} {c : Cursor} (h : Ahead ls c) : Here ls (skipSpace c) := by
  obtain ⟨⟨joined, hw⟩, hv⟩ := h
  generalize hc : c.rest = text at hw
  cases hw with
  | nil hg =>
    have hsolid : Solid [] := nofun
    refine .nil (rest_skipSpace hg hsolid ?_)
    rw [hc, List.append_nil]
  | @cons _ l ls gap text hg _ hw =>
    obtain ⟨x, tail, hx, hs, hne, -⟩ := (hv l (.head _)).exists_first
    have hsolid : Solid (l.chars ++ text) := by
      intro y rest hy
      rw [hx] at hy
      cases hy
      exact ⟨hs, hne⟩
    exact .cons (rest_skipSpace hg hsolid hc) hw hv

namespace Here

variable {l : Lexeme} {ls : List Lexeme} {c : Cursor}

theorem ahead (h : Here ls c) : Ahead ls c := by
  cases h with
  | nil hc => exact ⟨⟨false, by rw [hc]; exact .nil .nil⟩, fun _ h => nomatch h⟩
  | cons hc hw hv =>
    refine ⟨⟨false, ?_⟩, hv⟩
    rw [hc]
    exact .cons .nil (fun h => nomatch h) hw

theorem head?_rest (h : Here ls c) : c.rest.head? = firstChar ls := by
  cases h with
  | nil hc => rw [hc]; rfl
  | cons hc _ hv =>
    obtain ⟨x, tail, hx, -⟩ := (hv _ (.head _)).exists_first
    rw [hc, hx]
    simp [firstChar, hx]

end Here

/-- What follows a lexeme starts with a gap or with the next lexeme. Without a gap the two are not
both made of characters of names, because they would be read as one. -/
theorem Written.head {joined : Bool} {ls : List Lexeme} {x : Char} {text : List Char}
    (h : Written joined ls (x :: text)) (hv : ∀ l ∈ ls, l.Valid) :
    spaceChar x = true ∨ x = '#' ∨ firstChar ls = some x ∧
      ∀ l ∈ ls.head?, nameChar x = l.wordy ∧ (joined = true → l.wordy = false) := by
  generalize htext : x :: text = chars at h
  cases h with
  | nil hg =>
    subst htext
    exact hg.head.imp_right .inl
  | @cons _ l ls gap text hg hj hw =>
    cases gap with
    | cons y gap =>
      cases htext
      exact hg.head.imp_right .inl
    | nil =>
      obtain ⟨y, tail, hy, -, -, hname⟩ := (hv l (.head _)).exists_first
      rw [List.nil_append, hy] at htext
      cases htext
      refine .inr (.inr ⟨by simp [firstChar, hy], fun k hk => ?_⟩)
      cases hk
      exact ⟨hname, fun h => Bool.eq_false_iff.2 fun hw => hj h hw rfl⟩

/-- A text does not begin with a character that its first lexeme does not begin with, if that
character belongs to no gap either. This is how a mark is known not to be the start of a longer
one. -/
theorem Written.head?_ne {joined : Bool} {ls : List Lexeme} {text : List Char} {y : Char}
    (h : Written joined ls text) (hv : ∀ l ∈ ls, l.Valid) (hy : firstChar ls ≠ some y)
    (hys : spaceChar y = false) (hyh : y ≠ '#') : text.head? ≠ some y := by
  cases text with
  | nil => exact nofun
  | cons x text =>
    rintro ⟨⟩
    rcases h.head hv with hs | hs | hs
    · rw [hys] at hs
      cases hs
    · exact hyh hs
    · exact hy hs.1

/-- No character of names follows a lexeme that is made of them, or stands before a lexeme that is
not. -/
theorem Written.nameChar_head? {joined : Bool} {ls : List Lexeme} {text : List Char} {x : Char}
    (h : Written joined ls text) (hv : ∀ l ∈ ls, l.Valid)
    (hj : joined = true ∨ ∀ l ∈ ls.head?, l.wordy = false) (hx : text.head? = some x) :
    nameChar x = false := by
  cases text with
  | nil => cases hx
  | cons y text =>
    cases hx
    have hsolid : spaceChar x = true ∨ x = '#' → nameChar x = false := fun hs =>
      Bool.eq_false_iff.2 fun hn => by
        obtain ⟨h₁, h₂⟩ := solid_of_nameChar hn
        rcases hs with hs | hs
        · rw [h₁] at hs
          cases hs
        · exact h₂ hs
    rcases h.head hv with hs | hs | ⟨hs, hwordy⟩
    · exact hsolid (.inl hs)
    · exact hsolid (.inr hs)
    · cases ls with
      | nil => cases hs
      | cons l ls =>
        obtain ⟨hname, hjoined⟩ := hwordy l rfl
        rw [hname]
        exact hj.elim hjoined fun h => h l rfl

/-! ### Marks -/

section
variable {c : Cursor} {x y : Char} {text : List Char}

theorem char_gives (h : c.rest = x :: text) : (char x c).Gives fun s => s.next.rest = text := by
  unfold char
  split
  next h' => rw [h] at h'; cases h'
  next z rest h' =>
    rw [h] at h'
    cases h'
    rw [if_pos rfl]
    exact ⟨_, rfl, rfl⟩

theorem char_fails (h : c.rest.head? ≠ some x) : (char x c).Fails := by
  unfold char
  split
  next => exact ⟨_, rfl, rfl⟩
  next z rest h' =>
    rw [h'] at h
    rw [if_neg fun heq => h (by rw [heq]; rfl)]
    exact ⟨_, rfl, rfl⟩

theorem charNotBefore_gives (h : c.rest = x :: text) (hy : text.head? ≠ some y) :
    (charNotBefore x y c).Gives fun s => s.next.rest = text := by
  obtain ⟨s, hs, hrest⟩ := char_gives h
  unfold charNotBefore
  rw [hs]
  simp only [hrest, if_neg hy]
  exact ⟨s, rfl, hrest⟩

/-- A character that is missing, or is followed by the excluded one, is not read. So `=` does not
match the start of `==`. -/
theorem charNotBefore_fails (h : c.rest.head? ≠ some x ∨ ∃ text, c.rest = x :: y :: text) :
    (charNotBefore x y c).Fails := by
  unfold charNotBefore
  rcases h with h | ⟨text, h⟩
  · obtain ⟨f, hf, hfinal⟩ := char_fails h
    rw [hf]
    exact ⟨f, rfl, hfinal⟩
  · obtain ⟨s, hs, hrest⟩ := char_gives h
    rw [hs]
    simp only [hrest, List.head?_cons, if_true]
    exact ⟨_, rfl, rfl⟩

theorem pair_gives (h : c.rest = x :: y :: text) : (pair x y c).Gives fun s => s.next.rest = text := by
  unfold pair
  split
  next a b rest h' =>
    rw [h] at h'
    cases h'
    rw [if_pos ⟨rfl, rfl⟩]
    exact ⟨_, rfl, rfl⟩
  next h' => exact absurd h (h' _ _ _)

theorem pair_fails (h : ∀ text, c.rest ≠ x :: y :: text) : (pair x y c).Fails := by
  unfold pair
  split
  next a b rest h' =>
    rw [if_neg]
    · exact ⟨_, rfl, rfl⟩
    · rintro ⟨rfl, rfl⟩
      exact h rest h'
  next => exact ⟨_, rfl, rfl⟩

end

theorem lexeme_gives {α : Type} {read : (d : Cursor) → Reading (Step d α)} {c : Cursor}
    {P : α → Cursor → Prop} (h : (read (skipSpace c)).Gives fun s => P s.value s.next) :
    (lexeme read c).Gives fun s => P s.value s.next :=
  h.map fun _ hs => hs

theorem lexeme_fails {α : Type} {read : (d : Cursor) → Reading (Step d α)} {c : Cursor}
    (h : (read (skipSpace c)).Fails) : (lexeme read c).Fails :=
  h.map _

namespace Here

variable {l : Lexeme} {ls : List Lexeme} {c : Cursor} {m : Mark} {x y : Char}

/-- What is ahead after the first lexeme is read. -/
theorem exists_rest (h : Here (l :: ls) c) : ∃ text, c.rest = l.chars ++ text ∧
    Written l.wordy ls text ∧ ∀ d : Cursor, d.rest = text → Ahead ls d := by
  cases h with
  | @cons _ _ _ text hc hw hv =>
    exact ⟨text, hc, hw, fun d hd => ⟨⟨_, hd ▸ hw⟩, fun k hk => hv k (.tail _ hk)⟩⟩

/-- Lexemes that begin at the cursor are valid, as all lexemes ahead are. -/
theorem valid (h : Here ls c) : ∀ l ∈ ls, l.Valid := h.ahead.valid

/-- A mark of one character is read where it is the first lexeme, and leaves the others ahead. -/
theorem char (h : Here (.mark m :: ls) c) (hm : m.chars = [x]) :
    (Token.char x c).Gives fun s => Ahead ls s.next := by
  obtain ⟨text, hc, -, hnext⟩ := h.exists_rest
  rw [Lexeme.chars, hm] at hc
  exact (char_gives hc).mono fun s hs => hnext s.next hs

theorem char_fails (h : Here ls c) (hx : firstChar ls ≠ some x) : (Token.char x c).Fails :=
  NodeFormula.char_fails (by rw [h.head?_rest]; exact hx)

theorem charNotBefore (h : Here (.mark m :: ls) c) (hm : m.chars = [x]) (hy : firstChar ls ≠ some y)
    (hys : spaceChar y = false) (hyh : y ≠ '#') :
    (Token.charNotBefore x y c).Gives fun s => Ahead ls s.next := by
  obtain ⟨text, hc, hw, hnext⟩ := h.exists_rest
  rw [Lexeme.chars, hm] at hc
  have hhead := hw.head?_ne (fun l hl => h.valid l (.tail _ hl)) hy hys hyh
  exact (charNotBefore_gives hc hhead).mono fun s hs => hnext s.next hs

/-- A mark of two characters is read where it is the first lexeme, and leaves the others ahead. -/
theorem pair (h : Here (.mark m :: ls) c) (hm : m.chars = [x, y]) :
    (Token.pair x y c).Gives fun s => Ahead ls s.next := by
  obtain ⟨text, hc, -, hnext⟩ := h.exists_rest
  rw [Lexeme.chars, hm] at hc
  exact (pair_gives hc).mono fun s hs => hnext s.next hs

theorem pair_fails (h : Here ls c) (hx : firstChar ls ≠ some x) : (Token.pair x y c).Fails := by
  refine NodeFormula.pair_fails fun text hc => hx ?_
  rw [← h.head?_rest, hc]
  rfl

/-- A mark of one character is no longer mark if the next lexeme does not start with its second
character. -/
theorem pair_fails_of_single (h : Here (.mark m :: ls) c) (hm : m.chars = [x])
    (hy : firstChar ls ≠ some y) (hys : spaceChar y = false) (hyh : y ≠ '#') :
    (Token.pair x y c).Fails := by
  obtain ⟨text, hc, hw, -⟩ := h.exists_rest
  rw [Lexeme.chars, hm] at hc
  refine NodeFormula.pair_fails fun rest hrest => ?_
  rw [hc] at hrest
  cases hrest
  exact hw.head?_ne (fun l hl => h.valid l (.tail _ hl)) hy hys hyh rfl

end Here

/-! ### Words -/

theorem takeWhile_append_of_head? {p : Char → Bool} {a b : List Char} (ha : ∀ x ∈ a, p x = true)
    (hb : ∀ x, b.head? = some x → p x = false) : (a ++ b).takeWhile p = a := by
  rw [List.takeWhile_append_of_pos ha]
  cases b with
  | nil => simp
  | cons x b => simp [hb x rfl]

theorem dropWhile_append_of_head? {p : Char → Bool} {a b : List Char} (ha : ∀ x ∈ a, p x = true)
    (hb : ∀ x, b.head? = some x → p x = false) : (a ++ b).dropWhile p = b := by
  rw [List.dropWhile_append_of_pos ha]
  cases b with
  | nil => rfl
  | cons x b => simp [hb x rfl]

/-- A word is a character that begins names, followed by characters of names. -/
theorem isWord_iff {s : String} : isWord s = true ↔
    ∃ x rest, s.toList = x :: rest ∧ nameStart x = true ∧ ∀ y ∈ rest, nameChar y = true := by
  unfold isWord
  split
  next h => simp [h]
  next x rest h =>
    rw [Bool.and_eq_true, List.all_eq_true, h]
    constructor
    · exact fun ⟨hx, hrest⟩ => ⟨x, rest, rfl, hx, hrest⟩
    · rintro ⟨_, _, ⟨⟩, hx, hrest⟩
      exact ⟨hx, hrest⟩

theorem nameChar_of_isWord {s : String} (h : isWord s = true) : ∀ x ∈ s.toList, nameChar x = true := by
  obtain ⟨x, rest, hs, hx, hrest⟩ := isWord_iff.1 h
  rw [hs]
  exact List.forall_mem_cons.2 ⟨nameChar_of_nameStart hx, hrest⟩

theorem dropText?_append (s cs : List Char) : dropText? s (s ++ cs) = some cs := by
  induction s with
  | nil => rfl
  | cons x s ih => simp [dropText?, ih]

/-- A keyword is read exactly where it is the longest word, so that no character of names follows
it. -/
theorem keyword_gives {w : String} (hw : w.toList ≠ []) {c : Cursor} {text : List Char}
    (hc : c.rest = w.toList ++ text) (ht : ∀ x, text.head? = some x → nameChar x = false) :
    (keyword w c).Gives fun s => s.next.rest = text := by
  unfold keyword
  rw [dif_neg hw]
  split
  next h => rw [hc, dropText?_append] at h; cases h
  next rest h =>
    have hrest : rest = text := by
      rw [hc, dropText?_append] at h
      exact (Option.some.inj h).symm
    subst hrest
    have hfalse : ((rest.head?.map nameChar).getD false) = false := by
      cases hh : rest.head? with
      | none => rfl
      | some x => simp [ht x hh]
    simp only [hfalse]
    exact ⟨_, rfl, rfl⟩

/-- A keyword is not read where the longest word at the cursor is another one: a longer word, a
shorter one, or none. -/
theorem keyword_fails {w : String} {c : Cursor} (hw : ∀ x ∈ w.toList, nameChar x = true)
    (h : c.rest.takeWhile nameChar ≠ w.toList) : (keyword w c).Fails := by
  unfold keyword
  split
  next => exact ⟨_, rfl, rfl⟩
  next =>
    split
    next => exact ⟨_, rfl, rfl⟩
    next rest hrest =>
      have hc := eq_append_of_dropText? hrest
      cases hh : rest.head? with
      | none =>
        -- The source ends with the keyword.
        refine absurd ?_ h
        rw [hc]
        exact takeWhile_append_of_head? hw fun x hx => by rw [hh] at hx; cases hx
      | some x =>
        by_cases hx : nameChar x = true
        · simp only [Option.map_some, Option.getD_some, hx]
          exact ⟨_, rfl, rfl⟩
        · refine absurd ?_ h
          rw [hc]
          exact takeWhile_append_of_head? hw fun y hy => by
            rw [hh] at hy
            cases hy
            exact Bool.eq_false_iff.2 hx

theorem isDigit_of_mem_toDigits {n : Nat} {x : Char} (h : x ∈ Nat.toDigits 10 n) :
    x.isDigit = true :=
  Nat.isDigit_of_mem_toDigits (by decide) (by decide) h

theorem Lexeme.Valid.nameChar_of_wordy {l : Lexeme} (h : l.Valid) (hw : l.wordy = true) :
    ∀ x ∈ l.chars, nameChar x = true := by
  cases l with
  | word s => exact nameChar_of_isWord h
  | digits n => exact fun x hx => nameChar_of_isDigit (isDigit_of_mem_toDigits hx)
  | negative | quoted | mark => cases hw

/-- The longest word at a cursor is the first lexeme, if that is made of the characters of names. -/
theorem Here.takeWhile_nameChar {l : Lexeme} {ls : List Lexeme} {c : Cursor} (h : Here (l :: ls) c) :
    c.rest.takeWhile nameChar = if l.wordy then l.chars else [] := by
  obtain ⟨text, hc, hw, -⟩ := h.exists_rest
  have hv := h.valid l (.head _)
  rw [hc]
  split
  next hwordy =>
    rw [hwordy] at hw
    exact takeWhile_append_of_head? (hv.nameChar_of_wordy hwordy) fun x hx =>
      hw.nameChar_head? (fun k hk => h.valid k (.tail _ hk)) (.inl rfl) hx
  next hwordy =>
    obtain ⟨x, tail, hx, -, -, hname⟩ := hv.exists_first
    rw [hx, List.cons_append, List.takeWhile_cons_of_neg]
    rw [hname]
    exact hwordy

namespace Here

variable {ls : List Lexeme} {c : Cursor} {w : String}

theorem keyword (h : Here (.word w :: ls) c) : (Token.keyword w c).Gives fun s => Ahead ls s.next := by
  obtain ⟨text, hc, hw, hnext⟩ := h.exists_rest
  obtain ⟨x, rest, hs, -⟩ := isWord_iff.1 (h.valid _ (.head _))
  have hne : w.toList ≠ [] := by
    rw [hs]
    exact List.cons_ne_nil x rest
  refine (keyword_gives hne hc fun x hx => ?_).mono fun s hs => hnext s.next hs
  exact hw.nameChar_head? (fun k hk => h.valid k (.tail _ hk)) (.inl rfl) hx

/-- A keyword is not read where another lexeme comes first. Names that only begin with the keyword
are words of their own. -/
theorem keyword_fails (h : Here ls c) (hword : isWord w = true)
    (hne : ls.head? ≠ some (.word w)) : (Token.keyword w c).Fails := by
  refine NodeFormula.keyword_fails (nameChar_of_isWord hword) fun htake => ?_
  obtain ⟨x, rest, hw, hx, -⟩ := isWord_iff.1 hword
  cases ls with
  | nil =>
    cases h with
    | nil hc =>
      rw [hc, hw] at htake
      cases htake
  | cons l ls =>
    rw [h.takeWhile_nameChar] at htake
    cases l with
    | word s => exact hne (by rw [List.head?_cons, String.toList_inj.1 htake])
    | digits n =>
      have hd : x.isDigit = true := isDigit_of_mem_toDigits (n := n) <| by
        rw [show Nat.toDigits 10 n = w.toList from htake, hw]
        exact List.mem_cons_self
      rw [isDigit_eq_false_of_nameStart hx] at hd
      cases hd
    | negative | quoted | mark =>
      rw [hw] at htake
      cases htake

/-- A name is read where it is the first lexeme, with its own text as the value. It is read as far as
characters of names go, and the next lexeme does not start with one. -/
theorem name (h : Here (.word w :: ls) c) (hn : isName w = true) :
    (Token.name c).Gives fun s => s.value = w ∧ Ahead ls s.next := by
  obtain ⟨text, hc, -, hnext⟩ := h.exists_rest
  obtain ⟨hword, hkey⟩ := Bool.and_eq_true_iff.1 hn
  obtain ⟨x, rest, hs, hx, hrest⟩ := isWord_iff.1 hword
  have htake := h.takeWhile_nameChar
  have hdrop : c.rest.dropWhile nameChar = text := by
    have happend := List.takeWhile_append_dropWhile (p := nameChar) (l := c.rest)
    rw [htake] at happend
    exact List.append_cancel_left (happend.trans hc)
  unfold Token.name
  split
  next h' => rw [hc, Lexeme.chars, hs] at h'; cases h'
  next y tail h' =>
    have hy : nameChar x = true := nameChar_of_nameStart hx
    have hxy : x = y ∧ rest ++ text = tail := by
      rw [hc, Lexeme.chars, hs] at h'
      exact List.cons.inj h'
    obtain ⟨rfl, rfl⟩ := hxy
    rw [h', List.takeWhile_cons_of_pos hy] at htake
    rw [h', List.dropWhile_cons_of_pos hy] at hdrop
    have hchars : String.ofList (x :: (rest ++ text).takeWhile nameChar) = w := by
      rw [htake]
      exact String.ofList_toList
    simp only [hchars, hx, hkey, Bool.and_self, if_true]
    exact ⟨_, rfl, rfl, hnext _ hdrop⟩

/-- No name is read where a keyword, a mark, a string or a number comes first. A keyword is made of
characters of names, and is refused by the list of keywords. -/
theorem name_fails (h : Here ls c) (hne : ∀ n, ls.head? = some (.word n) → isName n = false) :
    (Token.name c).Fails := by
  unfold Token.name
  split
  next => exact ⟨_, rfl, rfl⟩
  next x rest hc =>
    cases ls with
    | nil =>
      cases h with
      | nil hc' => rw [hc] at hc'; cases hc'
    | cons l ls =>
      have htake := h.takeWhile_nameChar
      rw [hc] at htake
      have hfalse : (nameStart x &&
          !keywords.contains (String.ofList (x :: rest.takeWhile nameChar))) = false := by
        refine Bool.eq_false_iff.2 fun hx => ?_
        obtain ⟨hstart, hkey⟩ := Bool.and_eq_true_iff.1 hx
        have hname := nameChar_of_nameStart hstart
        rw [List.takeWhile_cons_of_pos hname] at htake
        cases l with
        | word n =>
          have hn : String.ofList (x :: rest.takeWhile nameChar) = n := by
            rw [htake]
            exact String.ofList_toList
          have hword : isWord n = true := h.valid _ (.head _)
          rw [hn] at hkey
          have := hne n rfl
          rw [isName, hword, hkey] at this
          cases this
        | digits n =>
          have hd : x.isDigit = true := isDigit_of_mem_toDigits (n := n) <| by
            rw [show Nat.toDigits 10 n = _ from htake.symm]
            exact List.mem_cons_self
          rw [isDigit_eq_false_of_nameStart hstart] at hd
          cases hd
        | negative | quoted | mark => cases htake
      simp only [hfalse]
      exact ⟨_, rfl, rfl⟩

/-! ### Strings and numbers -/

end Here

/-- A number that is not followed by the character of a name has no exponent. -/
theorem exponentChars_of_head? {text : List Char}
    (h : ∀ x, text.head? = some x → nameChar x = false) : exponentChars text = [] := by
  cases text with
  | nil => rfl
  | cons x text =>
    have hx := h x rfl
    have he : (x == 'e' || x == 'E') = false := by
      refine Bool.eq_false_iff.2 fun he => ?_
      simp only [Bool.or_eq_true, beq_iff_eq] at he
      rcases he with rfl | rfl <;> cases hx
    unfold exponentChars
    simp [he]

theorem natOfDigits_toDigits (n : Nat) : natOfDigits (Nat.toDigits 10 n) = n :=
  Nat.ofDigitChars_ten_toDigits

/-- An integer is read where no fraction and no word follows. Its digits are those of the integer,
and what follows has no digit to add and no letter for an exponent. -/
theorem number_gives {v : Int64} (hv : 0 ≤ v.toInt) {c : Cursor} {text : List Char}
    (hc : c.rest = Nat.toDigits 10 v.toInt.toNat ++ text)
    (ht : ∀ x, text.head? = some x → nameChar x = false) (hf : fractionChars text = []) :
    (number c).Gives fun s => s.value = .int v ∧ s.next.rest = text := by
  have hdigits : ∀ x ∈ Nat.toDigits 10 v.toInt.toNat, x.isDigit = true :=
    fun x => isDigit_of_mem_toDigits
  have hend : ∀ x, text.head? = some x → x.isDigit = false := fun x hx =>
    Bool.eq_false_iff.2 fun hd => by
      have := ht x hx
      rw [nameChar_of_isDigit hd] at this
      cases this
  have htake : c.rest.takeWhile Char.isDigit = Nat.toDigits 10 v.toInt.toNat := by
    rw [hc]
    exact takeWhile_append_of_head? hdigits hend
  have hdrop : c.rest.dropWhile Char.isDigit = text := by
    rw [hc]
    exact dropWhile_append_of_head? hdigits hend
  have hvalue : Word.ofInt? (natOfDigits (Nat.toDigits 10 v.toInt.toNat)) = some v := by
    have hlt := Int64.toInt_lt v
    rw [natOfDigits_toDigits, Int.toNat_of_nonneg hv, Word.ofInt?, if_pos, Int64.ofInt_toInt]
    rw [Word.bound]
    omega
  unfold number
  simp only [htake, hdrop, hf, exponentChars_of_head? ht, List.length_nil, List.drop_zero,
    List.isEmpty_nil, Bool.and_self, if_true, hvalue]
  rw [dif_neg Nat.toDigits_ne_nil]
  exact ⟨_, rfl, rfl, rfl⟩

/-- Only digits start with a digit. A word starts with a letter or an underscore, and a negative
number with its sign. -/
theorem firstChar_isDigit {ls : List Lexeme} (hv : ∀ l ∈ ls, l.Valid) {x : Char}
    (h : firstChar ls = some x) (hx : x.isDigit = true) : ∃ n rest, ls = .digits n :: rest := by
  cases ls with
  | nil => cases h
  | cons l ls =>
    have hl : l.chars.head? = some x := h
    cases l with
    | digits n => exact ⟨n, ls, rfl⟩
    | word s =>
      obtain ⟨y, rest, hs, hy, -⟩ := isWord_iff.1 (hv _ (.head _))
      rw [Lexeme.chars, hs] at hl
      cases hl
      rw [isDigit_eq_false_of_nameStart hy] at hx
      cases hx
    | negative | quoted => cases hl; cases hx
    | mark m => cases m <;> (cases hl; cases hx)

/-- A character that starts no name, number or string starts a mark, which is then the first
lexeme. -/
theorem firstChar_mark {ls : List Lexeme} (hv : ∀ l ∈ ls, l.Valid) {x : Char}
    (h : firstChar ls = some x) (hx : nameChar x = false) (hne : x ∉ ['"', '-']) :
    ∃ m rest, ls = .mark m :: rest ∧ m.chars.head? = some x := by
  cases ls with
  | nil => cases h
  | cons l ls =>
    obtain ⟨y, tail, hy, -, -, hname⟩ := (hv l (.head _)).exists_first
    have hl : l.chars.head? = some x := h
    cases l with
    | mark m => exact ⟨m, ls, rfl, hl⟩
    | word | digits =>
      rw [hy] at hl
      cases hl
      rw [hx] at hname
      cases hname
    | negative | quoted =>
      cases hl
      exact absurd (by decide) hne

/-- A character that starts one mark only starts no other lexeme. -/
theorem firstChar_ne_of_head? {ls : List Lexeme} (hv : ∀ l ∈ ls, l.Valid) {m : Mark} {x : Char}
    (h : ls.head? ≠ some (.mark m)) (hx : nameChar x = false) (hne : x ∉ ['"', '-'])
    (hm : ∀ k : Mark, k.chars.head? = some x → k = m) : firstChar ls ≠ some x := by
  intro hfirst
  obtain ⟨k, rest, rfl, hk⟩ := firstChar_mark hv hfirst hx hne
  exact h (by rw [hm k hk]; rfl)

/-- A point is not part of a number if no digits follow it. A member access is written with a name
behind the point, which starts with no digit. -/
theorem Written.fractionChars {joined : Bool} {ls : List Lexeme} {text : List Char}
    (h : Written joined ls text) (hv : ∀ l ∈ ls, l.Valid)
    (hdot : ∀ n rest, ls ≠ .mark .dot :: .digits n :: rest) : Token.fractionChars text = [] := by
  unfold Token.fractionChars
  split
  next rest =>
    have hnil : rest.takeWhile Char.isDigit = [] := by
      have hfirst : firstChar ls = some '.' := by
        by_contra hne
        exact h.head?_ne hv hne (by decide) (by decide) rfl
      obtain ⟨m, ls', rfl, hm⟩ := firstChar_mark hv hfirst (by decide) (by decide)
      obtain rfl : m = .dot := by
        cases m with
        | dot => rfl
        | _ => cases hm
      -- The point is the whole lexeme, so what follows it is written on its own.
      have hw : Written false ls' rest := by
        generalize htext : '.' :: rest = text at h
        cases h with
        | @cons _ _ _ gap text hg _ hw =>
          cases gap with
          | nil => cases htext; exact hw
          | cons x gap =>
            cases htext
            rcases hg.head with hs | hs <;> cases hs
      cases rest with
      | nil => rfl
      | cons x rest =>
        refine List.takeWhile_cons_of_neg fun hx => ?_
        have hx' : firstChar ls' = some x := by
          by_contra hne
          have hsolid := solid_of_nameChar (nameChar_of_isDigit hx)
          exact hw.head?_ne (fun l hl => hv l (.tail _ hl)) hne hsolid.1 hsolid.2 rfl
        obtain ⟨n, more, rfl⟩ := firstChar_isDigit (fun l hl => hv l (.tail _ hl)) hx' hx
        exact hdot n more rfl
    simp [hnil]
  next => rfl

namespace Here

variable {ls : List Lexeme} {c : Cursor} {w : String}

/-- A string is read where it is the first lexeme, without its quotes. It holds none itself, so it
ends at the next one. -/
theorem string (h : Here (.quoted w :: ls) c) :
    (Token.string c).Gives fun s => s.value = w ∧ Ahead ls s.next := by
  obtain ⟨text, hc, -, hnext⟩ := h.exists_rest
  have hv : '"' ∉ w.toList := h.valid _ (.head _)
  have hc' : c.rest = '"' :: (w.toList ++ '"' :: text) := by simpa [Lexeme.chars] using hc
  have hin : ∀ x ∈ w.toList, (x != '"') = true := by
    intro x hx
    refine bne_iff_ne.2 ?_
    rintro rfl
    exact hv hx
  have hout : ∀ x, ('"' :: text).head? = some x → (x != '"') = false := by
    rintro x ⟨⟩
    rfl
  unfold Token.string
  split
  next rest hrest =>
    rw [hc'] at hrest
    cases hrest
    have hdrop := dropWhile_append_of_head? hin hout
    have htake := takeWhile_append_of_head? hin hout
    split
    next hd => rw [hdrop] at hd; cases hd
    next q after hd =>
      rw [hdrop] at hd
      cases hd
      exact ⟨_, rfl, (congrArg String.ofList htake).trans String.ofList_toList, hnext _ rfl⟩
  next hne => exact absurd hc' (hne _)

theorem string_fails (h : Here ls c) (hx : firstChar ls ≠ some '"') : (Token.string c).Fails := by
  unfold Token.string
  split
  next rest hc =>
    refine absurd ?_ hx
    rw [← h.head?_rest, hc]
    rfl
  next => exact ⟨_, rfl, rfl⟩

/-- No number is read where the first lexeme does not begin with a digit, and the failure is soft, so
that other readings are tried. -/
theorem number_fails (h : Here ls c) (hx : ∀ x, firstChar ls = some x → x.isDigit = false) :
    (Token.number c).Fails := by
  have hnil : c.rest.takeWhile Char.isDigit = [] := by
    have hhead := h.head?_rest
    cases hc : c.rest with
    | nil => rfl
    | cons x rest =>
      rw [hc] at hhead
      rw [List.takeWhile_cons_of_neg]
      rw [hx x hhead.symm]
      exact Bool.false_ne_true
  unfold Token.number
  simp only
  rw [dif_pos hnil]
  exact ⟨_, rfl, rfl⟩

/-- An integer is read where its digits are the first lexeme. It must not be followed by a point and
digits, which would make it a fraction. -/
theorem number {v : Int64} (h : Here (.digits v.toInt.toNat :: ls) c) (hv : 0 ≤ v.toInt)
    (hdot : ∀ n rest, ls ≠ .mark .dot :: .digits n :: rest) :
    (Token.number c).Gives fun s => s.value = .int v ∧ Ahead ls s.next := by
  obtain ⟨text, hc, hw, hnext⟩ := h.exists_rest
  have hvalid : ∀ l ∈ ls, l.Valid := fun l hl => h.valid l (.tail _ hl)
  have ht : ∀ x, text.head? = some x → nameChar x = false := fun x hx =>
    hw.nameChar_head? hvalid (.inl rfl) hx
  exact (number_gives hv hc ht (hw.fractionChars hvalid hdot)).mono fun s hs =>
    ⟨hs.1, hnext s.next hs.2⟩

end Here

end NodeFormula
