import NodeFormula.Proofs.Parsing.Shape

/-!
# Writing formulas

A formula is written as a list of lexemes, following the grammar: an operand gets parentheses exactly
if the level of its top operator is lower than its position asks for. The lexemes are then written one
after the other with gaps of white space and comments between them, in any way that keeps them apart
(`Written`).

Spans are not written. `unspanned` forgets them, so that formulas can be compared up to their spans.
-/

namespace NodeFormula

/-! ### Lexemes -/

/-- The marks of formulas. -/
inductive Mark where
  | openParen
  | closeParen
  | openBrace
  | closeBrace
  | comma
  | semicolon
  | colon
  | dot
  | assign
  | arrow
  | plus
  | minus
  | star
  | slash
  | percent
  | stars
  | less
  | lessEqual
  | greater
  | greaterEqual
  | equal
  | notEqual
deriving DecidableEq, Repr

/-- How a mark is written. -/
def Mark.chars : Mark → List Char
  | openParen => ['(']
  | closeParen => [')']
  | openBrace => ['\x7b']
  | closeBrace => ['\x7d']
  | comma => [',']
  | semicolon => [';']
  | colon => [':']
  | dot => ['.']
  | assign => ['=']
  | arrow => ['-', '>']
  | plus => ['+']
  | minus => ['-']
  | star => ['*']
  | slash => ['/']
  | percent => ['%']
  | stars => ['*', '*']
  | less => ['<']
  | lessEqual => ['<', '=']
  | greater => ['>']
  | greaterEqual => ['>', '=']
  | equal => ['=', '=']
  | notEqual => ['!', '=']

/-- What a formula is made of, apart from gaps. -/
inductive Lexeme where
  /-- A name or a keyword. -/
  | word (text : String)
  | digits (value : Nat)
  /-- An integer with its minus sign, as loop bounds have it. -/
  | negative (value : Nat)
  | quoted (text : String)
  | mark (mark : Mark)
deriving DecidableEq, Repr

namespace Lexeme

/-- How a lexeme is written. -/
def chars : Lexeme → List Char
  | word s => s.toList
  | digits n => Nat.toDigits 10 n
  | negative n => '-' :: Nat.toDigits 10 n
  | quoted s => '"' :: (s.toList ++ ['"'])
  | mark m => m.chars

/-- Whether a lexeme is made of the characters of names. -/
def wordy : Lexeme → Bool
  | word _ => true
  | digits _ => true
  | _ => false

/-- Lexemes in parentheses, if asked for. -/
def wrap (parens : Bool) (ls : List Lexeme) : List Lexeme :=
  if parens then mark .openParen :: (ls ++ [mark .closeParen]) else ls

/-- Lists of lexemes with commas between them. -/
def commas : List (List Lexeme) → List Lexeme
  | [] => []
  | [ls] => ls
  | ls :: next :: rest => ls ++ mark .comma :: commas (next :: rest)

end Lexeme

/-! ### Levels -/

namespace BinaryOp

/-- The level of an operator in the grammar, the weakest first. Level 3 is `not` and level 8 has calls,
members and primary expressions. -/
def level : BinaryOp → Nat
  | or => 1
  | and => 2
  | lt | le | gt | ge | eq | ne => 4
  | add | sub => 5
  | mul | div | mod => 6
  | pow => 7

/-- The level that a left operand needs. -/
def leftLevel : BinaryOp → Nat
  | or => 1
  | and => 2
  | lt | le | gt | ge | eq | ne => 5
  | add | sub => 5
  | mul | div | mod => 6
  | pow => 8

/-- The level that a right operand needs. Only a power takes one of its own level. -/
def rightLevel : BinaryOp → Nat
  | or => 2
  | and => 3
  | lt | le | gt | ge | eq | ne => 5
  | add | sub => 6
  | mul | div | mod => 7
  | pow => 7

/-- How an operator is written. -/
def lexeme : BinaryOp → Lexeme
  | or => .word "or"
  | and => .word "and"
  | lt => .mark .less
  | le => .mark .lessEqual
  | gt => .mark .greater
  | ge => .mark .greaterEqual
  | eq => .mark .equal
  | ne => .mark .notEqual
  | add => .mark .plus
  | sub => .mark .minus
  | mul => .mark .star
  | div => .mark .slash
  | mod => .mark .percent
  | pow => .mark .stars

end BinaryOp

namespace UnaryOp

/-- The level of an operator, which is also the one that its operand needs. -/
def level : UnaryOp → Nat
  | neg => 7
  | not => 3

/-- How an operator is written. -/
def lexeme : UnaryOp → Lexeme
  | neg => .mark .minus
  | not => .word "not"

end UnaryOp

/-- The level of the top operator of an expression. -/
def Expr.level : Expr → Nat
  | .unary op _ _ => op.level
  | .binary op _ _ _ => op.level
  | _ => 8

/-! ### Formulas as lexemes -/

open Lexeme

mutual

/-- How an expression is written. Numbers with a fraction or an exponent are left out. -/
def Expr.lexemes : Expr → List Lexeme
  | .int v _ => [digits v.toInt.toNat]
  | .float _ _ => []
  | .bool b _ => [word (if b then "true" else "false")]
  | .str s _ => [quoted s]
  | .name n _ => [word n]
  | .vector items _ =>
    mark .openBrace :: (commas (Expr.lexemesAll items) ++ [mark .closeBrace])
  | .unary op e _ => op.lexeme :: wrap (e.level < op.level) e.lexemes
  | .binary op l r _ =>
    wrap (l.level < op.leftLevel) l.lexemes ++
      op.lexeme :: wrap (r.level < op.rightLevel) r.lexemes
  | .call f args _ =>
    word f :: mark .openParen :: (commas (Expr.lexemesAll args) ++ [mark .closeParen])
  | .member e n _ => wrap (e.level < 8) e.lexemes ++ [mark .dot, word n]

/-- How each of several expressions is written. -/
def Expr.lexemesAll : List Expr → List (List Lexeme)
  | [] => []
  | e :: es => e.lexemes :: Expr.lexemesAll es

end

/-- How a target is written. -/
def Target.lexemes : Target → List Lexeme
  | .name n _ => [word n]
  | .ignore _ => [word "_"]

/-- How the default value of a parameter is written. -/
def Lexeme.preset : Option Expr → List Lexeme
  | some e => mark .assign :: e.lexemes
  | none => []

/-- How a parameter is written. -/
def Param.lexemes (p : Param) : List Lexeme :=
  word p.name :: mark .colon :: word p.type.name :: Lexeme.preset p.default

/-- How a loop bound is written. -/
def Lexeme.bound (n : Int64) : Lexeme :=
  if n.toInt < 0 then negative n.toInt.natAbs else digits n.toInt.toNat

/-- How the keyword of a definition is written. -/
def DefKind.lexeme : DefKind → Lexeme
  | .function => word "fn"
  | .group => word "ng"

/-- How the head of a definition is written. Its outputs are left out if there are none. -/
def Header.lexemes (h : Header) : List Lexeme :=
  h.kind.lexeme :: word h.name :: mark .openParen ::
    (commas (h.inputs.map Param.lexemes) ++ mark .closeParen ::
      if h.outputs.isEmpty then [] else mark .arrow :: commas (h.outputs.map Param.lexemes))

/-- How the counter of a loop is written. -/
def Lexeme.counter : Option String → List Lexeme
  | some n => [word n, mark .assign]
  | none => []

mutual

/-- How a statement is written. -/
def Stmt.lexemes : Stmt → List Lexeme
  | .expr e _ => e.lexemes ++ [mark .semicolon]
  | .assign targets e _ =>
    commas (targets.map Target.lexemes) ++ mark .assign :: (e.lexemes ++ [mark .semicolon])
  | .setField target field e _ =>
    word target :: mark .dot :: word field :: mark .assign :: (e.lexemes ++ [mark .semicolon])
  | .loop counter first last body _ =>
    word "loop" :: (Lexeme.counter counter ++
      Lexeme.bound first :: mark .arrow :: Lexeme.bound last :: mark .openBrace ::
        (Stmt.lexemesAll body ++ [mark .closeBrace]))
  | .zone count body _ =>
    word "repeat" :: (count.lexemes ++
      mark .openBrace :: (Stmt.lexemesAll body ++ [mark .closeBrace]))
  | .define h body _ =>
    h.lexemes ++ mark .openBrace :: (Stmt.lexemesAll body ++ [mark .closeBrace])

/-- How statements are written. -/
def Stmt.lexemesAll : List Stmt → List Lexeme
  | [] => []
  | s :: ss => s.lexemes ++ Stmt.lexemesAll ss

end

/-- How a program is written. -/
def Program.lexemes (p : Program) : List Lexeme := Stmt.lexemesAll p.items

/-! ### Texts -/

/-- A text between lexemes: white space, and comments that end with their line. -/
inductive Gap : List Char → Prop where
  | nil : Gap []
  | blank {x : Char} {gap : List Char} : Token.spaceChar x = true → Gap gap → Gap (x :: gap)
  | comment {text gap : List Char} : (∀ x ∈ text, Token.commentChar x = true) → Gap gap →
      Gap ('#' :: (text ++ '\n' :: gap))

/-- A text is made of lexemes with gaps around them, and two lexemes that are made of the characters of
names do not touch. The flag says whether such a lexeme stands right before the text. -/
inductive Written : Bool → List Lexeme → List Char → Prop where
  | nil {joined : Bool} {gap : List Char} : Gap gap → Written joined [] gap
  | cons {joined : Bool} {l : Lexeme} {ls : List Lexeme} {gap text : List Char} : Gap gap →
      (joined = true → l.wordy = true → gap ≠ []) → Written l.wordy ls text →
      Written joined (l :: ls) (gap ++ (l.chars ++ text))

/-- Lexemes with a gap before those that are made of the characters of names, and no gap before the
others. -/
def Lexeme.text (gap : List Char) (ls : List Lexeme) : List Char :=
  ls.flatMap fun l => (if l.wordy then gap else []) ++ l.chars

/-- One text of a program for each gap. -/
def Program.print (gap : List Char) (p : Program) : String :=
  String.ofList (Lexeme.text gap p.lexemes)

section
variable {gap : List Char} (hgap : Gap gap) (hne : gap ≠ [])
include hgap hne

theorem written_text (joined : Bool) (ls : List Lexeme) : Written joined ls (Lexeme.text gap ls) := by
  induction ls generalizing joined with
  | nil => exact .nil .nil
  | cons l ls ih =>
    rw [Lexeme.text, List.flatMap_cons, List.append_assoc]
    cases hl : l.wordy with
    | true => exact .cons hgap (fun _ _ => hne) (ih l.wordy)
    | false => exact .cons .nil (fun _ hw => by rw [hl] at hw; cases hw) (ih l.wordy)

/-- Every program has a text. -/
theorem Program.written_print (p : Program) : Written false p.lexemes (p.print gap).toList := by
  rw [print, String.toList_ofList]
  exact written_text hgap hne false p.lexemes

end

/-! ### Forgetting spans -/

mutual

/-- An expression without its spans. -/
def Expr.unspanned : Expr → Expr
  | .int v _ => .int v default
  | .float v _ => .float v default
  | .bool v _ => .bool v default
  | .str v _ => .str v default
  | .name n _ => .name n default
  | .vector items _ => .vector (Expr.unspannedAll items) default
  | .unary op e _ => .unary op e.unspanned default
  | .binary op l r _ => .binary op l.unspanned r.unspanned default
  | .call f args _ => .call f (Expr.unspannedAll args) default
  | .member e n _ => .member e.unspanned n default

/-- Expressions without their spans. -/
def Expr.unspannedAll : List Expr → List Expr
  | [] => []
  | e :: es => e.unspanned :: Expr.unspannedAll es

end

/-- A target without its span. -/
def Target.unspanned : Target → Target
  | .name n _ => .name n default
  | .ignore _ => .ignore default

/-- A parameter without its spans. -/
def Param.unspanned (p : Param) : Param :=
  ⟨p.name, p.type, p.default.map Expr.unspanned, Inhabited.default⟩

/-- The head of a definition without its spans. -/
def Header.unspanned (h : Header) : Header :=
  ⟨h.kind, h.name, h.inputs.map Param.unspanned, h.outputs.map Param.unspanned⟩

mutual

/-- A statement without its spans. -/
def Stmt.unspanned : Stmt → Stmt
  | .expr e _ => .expr e.unspanned default
  | .assign targets e _ => .assign (targets.map Target.unspanned) e.unspanned default
  | .setField target field e _ => .setField target field e.unspanned default
  | .loop counter first last body _ => .loop counter first last (Stmt.unspannedAll body) default
  | .zone count body _ => .zone count.unspanned (Stmt.unspannedAll body) default
  | .define h body _ => .define h.unspanned (Stmt.unspannedAll body) default

/-- Statements without their spans. -/
def Stmt.unspannedAll : List Stmt → List Stmt
  | [] => []
  | s :: ss => s.unspanned :: Stmt.unspannedAll ss

end

/-- A program without its spans. -/
def Program.unspanned (p : Program) : Program := ⟨Stmt.unspannedAll p.items⟩

theorem Expr.unspannedAll_eq_map (es : List Expr) :
    Expr.unspannedAll es = es.map Expr.unspanned := by
  induction es with
  | nil => rfl
  | cons e es ih => rw [unspannedAll, ih, List.map_cons]

theorem Expr.lexemesAll_eq_map (es : List Expr) : Expr.lexemesAll es = es.map Expr.lexemes := by
  induction es with
  | nil => rfl
  | cons e es ih => rw [lexemesAll, ih, List.map_cons]

theorem Stmt.unspannedAll_eq_map (ss : List Stmt) :
    Stmt.unspannedAll ss = ss.map Stmt.unspanned := by
  induction ss with
  | nil => rfl
  | cons s ss ih => rw [unspannedAll, ih, List.map_cons]

@[simp] theorem Expr.unspanned_withSpan (e : Expr) (span : Span) :
    (e.withSpan span).unspanned = e.unspanned := by
  cases e <;> rfl

end NodeFormula
