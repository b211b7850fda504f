import NodeFormula.Formula.Step
import NodeFormula.Number.Reading
import NodeFormula.Number.Word

/-!
# Tokens

White space with comments, names, keywords, marks, strings and numbers. Each reader looks at the very
start of its cursor; `lexeme` skips space first.
-/

namespace NodeFormula.Token

/-- Words that cannot be names. -/
def keywords : List String :=
  ["fn", "ng", "loop", "repeat", "and", "or", "not", "true", "false"]

/-- Whether a character can start a name. -/
def nameStart (c : Char) : Bool := c.isAlpha || c == '_'

/-- Whether a character can stand in a name. -/
def nameChar (c : Char) : Bool := c.isAlphanum || c == '_'

/-- Whether a character separates tokens. -/
def spaceChar (c : Char) : Bool := c == ' ' || c == '\t' || c == '\r' || c == '\n'

/-- Whether a character can stand in a comment. -/
def commentChar (c : Char) : Bool := c != '\r' && c != '\n'

/-- Whether what follows a comment ends it: a line break, or the end of the source. A carriage return
alone is no line break. -/
def endsComment : List Char → Bool
  | [] => true
  | '\n' :: _ => true
  | '\r' :: '\n' :: _ => true
  | _ => false

/-- Skip white space and comments. -/
def skipSpace (c : Cursor) : Cursor :=
  match _h : c.rest with
  | [] => c
  | x :: rest =>
    if spaceChar x then skipSpace (c.after [x] rest)
    else if x = '#' ∧ endsComment (rest.dropWhile commentChar) then
      skipSpace (c.after (x :: rest.takeWhile commentChar) (rest.dropWhile commentChar))
    else c
termination_by c.rest.length
decreasing_by
  · exact Cursor.length_lt (Cursor.lt_after _h (by simp))
  · exact Cursor.length_lt (Cursor.lt_after (by simp [_h]) (by simp))

theorem le_skipSpace (c : Cursor) : c ≤ skipSpace c := by
  fun_induction skipSpace c with
  | case1 c h => exact Cursor.le_refl c
  | case2 c x rest h _ ih => exact Cursor.le_trans (Cursor.le_after h) ih
  | case3 c x rest h _ _ ih => exact Cursor.le_trans (Cursor.le_after (by simp [h])) ih
  | case4 c x rest h => exact Cursor.le_refl c

/-- Skip space, then read. -/
def lexeme {α : Type} (read : (d : Cursor) → Reading (Step d α)) (c : Cursor) : Reading (Step c α) :=
  (read (skipSpace c)).map fun s => s.since (le_skipSpace c)

/-- What follows `s`, if the characters start with it. -/
def dropText? : (s cs : List Char) → Option (List Char)
  | [], cs => some cs
  | _ :: _, [] => none
  | x :: s, c :: cs => if x = c then dropText? s cs else none

theorem eq_append_of_dropText? {s cs rest : List Char} (h : dropText? s cs = some rest) :
    cs = s ++ rest := by
  fun_induction dropText? s cs with
  | case1 => simp_all
  | case2 => simp at h
  | case3 s x cs ih => simp [ih h]
  | case4 => simp at h

/-- Read one given character. -/
def char (x : Char) (c : Cursor) : Reading (Step c Unit) :=
  match h : c.rest with
  | [] => .error (.mismatch c)
  | y :: rest =>
    if y = x then .ok ⟨(), c.after [y] rest, Cursor.lt_after (by simp [h]) (by simp)⟩
    else .error (.mismatch c)

/-- Read a character that is not followed by another given one. -/
def charNotBefore (x after : Char) (c : Cursor) : Reading (Step c Unit) :=
  match char x c with
  | .error f => .error f
  | .ok s => if s.next.rest.head? = some after then .error (.mismatch s.next) else .ok s

/-- Read two given characters. -/
def pair (x y : Char) (c : Cursor) : Reading (Step c Unit) :=
  match h : c.rest with
  | a :: b :: rest =>
    if a = x ∧ b = y then .ok ⟨(), c.after [a, b] rest, Cursor.lt_after (by simp [h]) (by simp)⟩
    else .error (.mismatch c)
  | _ => .error (.mismatch c)

/-- Read a keyword that does not go on as a longer name. -/
def keyword (word : String) (c : Cursor) : Reading (Step c String) :=
  if hw : word.toList = [] then .error (.mismatch c)
  else match h : dropText? word.toList c.rest with
    | none => .error (.mismatch c)
    | some rest =>
      let next := c.after word.toList rest
      if (rest.head?.map nameChar).getD false then .error (.mismatch next)
      else .ok ⟨word, next, Cursor.lt_after (eq_append_of_dropText? h) hw⟩

/-- Read a name: letters, digits and underscores, not starting with a digit, and no keyword. -/
def name (c : Cursor) : Reading (Step c String) :=
  match h : c.rest with
  | [] => .error (.mismatch c)
  | x :: rest =>
    let chars := x :: rest.takeWhile nameChar
    let word := String.ofList chars
    if nameStart x && !keywords.contains word then
      .ok ⟨word, c.after chars (rest.dropWhile nameChar),
        Cursor.lt_after (by simp [h, chars]) (by simp [chars])⟩
    else .error (.mismatch c)

/-- Read a string: all characters up to the next quote. -/
def string (c : Cursor) : Reading (Step c String) :=
  match h : c.rest with
  | '"' :: rest =>
    match hd : rest.dropWhile (· != '"') with
    | [] => .error (.mismatch ⟨c.offset + utf8Length c.rest, []⟩)
    | q :: after =>
      let content := rest.takeWhile (· != '"')
      .ok ⟨String.ofList content, c.after ('"' :: content ++ [q]) after,
        Cursor.lt_after
          (by simp only [h, content, List.cons_append, List.append_assoc, List.nil_append, ← hd,
                List.takeWhile_append_dropWhile])
          (by simp)⟩
  | _ => .error (.mismatch c)

/-- A number in a formula. -/
inductive Number where
  | int (value : Int64)
  | float (value : Float)
deriving DecidableEq

/-- The characters of an exponent at the start of a text: `e`, an optional sign, and digits. -/
def exponentChars : List Char → List Char
  | e :: rest =>
    if e == 'e' || e == 'E' then
      let sign := match rest with
        | '+' :: _ => ['+']
        | '-' :: _ => ['-']
        | _ => []
      let digits := (rest.drop sign.length).takeWhile Char.isDigit
      if digits.isEmpty then [] else e :: sign ++ digits
    else []
  | [] => []

/-- The characters of a fraction at the start of a text: a point and digits. -/
def fractionChars : List Char → List Char
  | '.' :: rest =>
    let digits := rest.takeWhile Char.isDigit
    if digits.isEmpty then [] else '.' :: digits
  | _ => []

/-- The characters of an exponent stand at the front. There are none if the letter and an optional
sign are not followed by a digit. -/
theorem exponentChars_append (cs : List Char) :
    exponentChars cs ++ cs.drop (exponentChars cs).length = cs := by
  fun_cases exponentChars cs with
  | case1 => simp
  | case2 e rest he sign digits hd =>
    have hs : sign ++ rest.drop sign.length = rest := by
      simp only [sign]
      split <;> simp
    have ht : digits ++ (rest.drop sign.length).dropWhile Char.isDigit = rest.drop sign.length :=
      List.takeWhile_append_dropWhile
    have hr : rest = (sign ++ digits) ++ (rest.drop sign.length).dropWhile Char.isDigit := by
      rw [List.append_assoc, ht, hs]
    have := congrArg (List.drop (sign ++ digits).length) hr
    simp only [List.drop_left] at this
    simp only [List.cons_append, List.length_cons, List.drop_succ_cons, this]
    rw [← hr]
  | case3 => simp
  | case4 => simp

theorem fractionChars_append (cs : List Char) :
    fractionChars cs ++ cs.drop (fractionChars cs).length = cs := by
  fun_cases fractionChars cs with
  | case1 => simp
  | case2 rest digits hd =>
    have ht : digits ++ rest.dropWhile Char.isDigit = rest := List.takeWhile_append_dropWhile
    have := congrArg (List.drop digits.length) ht
    simp only [List.drop_left] at this
    simp [← this, ht]
  | case3 => simp

/-- Read an unsigned number. With a fraction or an exponent it is a double, else an integer. -/
def number (c : Cursor) : Reading (Step c Number) :=
  let whole := c.rest.takeWhile Char.isDigit
  let afterWhole := c.rest.dropWhile Char.isDigit
  let fraction := fractionChars afterWhole
  let afterFraction := afterWhole.drop fraction.length
  let exponent := exponentChars afterFraction
  let rest := afterFraction.drop exponent.length
  if hw : whole = [] then .error (.mismatch c)
  else
    have split : c.rest = (whole ++ fraction ++ exponent) ++ rest := by
      simp only [List.append_assoc, exponent, rest, exponentChars_append, fraction, afterFraction,
        fractionChars_append, whole, afterWhole, List.takeWhile_append_dropWhile]
    let next := c.after (whole ++ fraction ++ exponent) rest
    have later : c < next := Cursor.lt_after split (by simp [hw])
    if fraction.isEmpty && exponent.isEmpty then
      match Word.ofInt? (natOfDigits whole) with
      | some n => .ok ⟨.int n, next, later⟩
      | none => .error (.stop .intRange c)
    else
      let power := (readExponent? exponent).getD 0
      .ok ⟨.float (Decimal.ofParts whole (fraction.drop 1) power).toFloat, next, later⟩

end NodeFormula.Token
