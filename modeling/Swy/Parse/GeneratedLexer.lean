import Swy.Library.Lexer
import Swy.Parse.GeneratedParser

/-!
# The generated lexer

The rules of `GeneratedLexer.g4` in their order. A text is read by the longest match, and by the
first rule on ties.
-/

namespace Swy

open Library LexerRule

/-- The tokens of `GeneratedLexer.g4`: those the parser reads, and the loop keywords. -/
inductive LexerKind where
  | parsed (kind : TokenKind)
  | for_ | break_ | continue_
deriving DecidableEq, Repr

namespace GeneratedLexer

/-- The rules with a fixed text, up to `Continue`. -/
def keywords : List (LexerKind × String) :=
  [(.parsed .return_, "return"), (.parsed .meta_, "meta"), (.parsed .if_, "if"),
    (.parsed .else_, "else"), (.for_, "for"), (.break_, "break"), (.continue_, "continue")]

/-- The rules from `OpenPar` to `Semicolon`. -/
def punctuation : List (LexerKind × String) :=
  [(.parsed .openPar, "("), (.parsed .closePar, ")"), (.parsed .openCurly, "\x7b"),
    (.parsed .closeCurly, "\x7d"), (.parsed .arrow, "->"), (.parsed .comma, ","),
    (.parsed .semicolon, ";")]

/-- The rules `True` and `False`. -/
def booleans : List (LexerKind × String) := [(.parsed .true_, "true"), (.parsed .false_, "false")]

/-- The rules of the operators. -/
def operators : List (LexerKind × String) :=
  [(.parsed .operatorMul, "*"), (.parsed .operatorDiv, "/"), (.parsed .operatorPlus, "+"),
    (.parsed .operatorMinus, "-"), (.parsed .operatorAssign, "="),
    (.parsed .operatorLessThan, "<"), (.parsed .operatorGreaterThan, ">"),
    (.parsed .operatorLessThanOrEq, "<="), (.parsed .operatorGreaterThanOrEq, ">="),
    (.parsed .operatorEqual, "=="), (.parsed .operatorNotEqual, "!=")]

/-- `Digit`. -/
def digit (c : Char) : Bool := '0' ≤ c && c ≤ '9'

/-- `LETTER`. -/
def letter (c : Char) : Bool := 'a' ≤ c && c ≤ 'z' || 'A' ≤ c && c ≤ 'Z' || c == '_'

/-- The signs of an integer literal. -/
def sign (c : Char) : Bool := c == '+' || c == '-'

/-- One or more digits. -/
def digits (word : List Char) : Bool := !word.isEmpty && word.all digit

/-- `IntegerLiteral`. -/
def integerLiteral : List Char → Bool
  | [] => false
  | c :: cs => if sign c then digits cs else digits (c :: cs)

/-- `Identifier`. -/
def identifier : List Char → Bool
  | [] => false
  | c :: cs => letter c && cs.all fun c => letter c || digit c

/-- The text of a comment and the line end behind it. -/
def untilLineEnd : List Char → Bool
  | [] => false
  | c :: cs =>
    if c == '\n' then cs.isEmpty
    else if c == '\r' then cs == ['\n']
    else untilLineEnd cs

/-- `Comment`. -/
def comment (word : List Char) : Bool :=
  ['/', '/'].isPrefixOf word && untilLineEnd (word.drop 2)

/-- The text of a comment up to the first end marker. -/
def untilMarker : List Char → Bool
  | [] => false
  | c :: cs => if ['*', '/'].isPrefixOf (c :: cs) then cs == ['/'] else untilMarker cs

/-- `MultilineComment`. -/
def multilineComment (word : List Char) : Bool :=
  ['/', '*'].isPrefixOf word && untilMarker (word.drop 2)

/-- The characters of `Whitespace`. -/
def blank (c : Char) : Bool := c == ' ' || c == '\t' || c == '\r' || c == '\n'

/-- `Whitespace`. -/
def whitespace (word : List Char) : Bool := !word.isEmpty && word.all blank

/-- A rule with a fixed text. -/
def literal (entry : LexerKind × String) : LexerRule Char LexerKind :=
  ⟨some entry.1, fun word => word == entry.2.toList⟩

/-- `GeneratedLexer.g4`. -/
def rules : List (LexerRule Char LexerKind) :=
  (keywords ++ punctuation ++ booleans).map literal ++
    [⟨some (.parsed .integerLiteral), integerLiteral⟩,
      ⟨some (.parsed .identifier), identifier⟩] ++
    operators.map literal ++
    [⟨none, comment⟩, ⟨none, multilineComment⟩, ⟨none, whitespace⟩]

/-- The tokens of a text, nothing if there is a token recognition error. -/
def tokens (text : String) : Option (List (LexerKind × String)) :=
  (lex rules text.toList).map fun words => words.map fun word => (word.1, String.ofList word.2)

example : tokens "a<5>(); // the rest\n" =
    some [(.parsed .identifier, "a"), (.parsed .operatorLessThan, "<"),
      (.parsed .integerLiteral, "5"), (.parsed .operatorGreaterThan, ">"),
      (.parsed .openPar, "("), (.parsed .closePar, ")"), (.parsed .semicolon, ";")] := by
  decide

end GeneratedLexer

end Swy
