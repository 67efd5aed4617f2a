import CMinusMinus.Span
import CMinusMinus.Text.Quoted

/-!
Tokens of the language: their kinds, the words and signs that spell them, and how messages show
them.
-/
namespace CMinusMinus

namespace Token

/-- The kinds of token; the last one marks the end of the text. -/
inductive Kind where
  | ident | int | string
  | intKw | boolKw | voidKw | structKw | trueKw | falseKw
  | ifKw | elseKw | whileKw | returnKw | cin | cout
  | lbrace | rbrace | lparen | rparen | comma | semi | dot
  | eq | plus | minus | plusPlus | minusMinus | star | slash
  | lt | gt | le | ge | eqEq | ne | andAnd | orOr | bang | write | read
  | eof
deriving DecidableEq, Repr

/-- The name of a kind in token listings. -/
def Kind.name : Kind → String
  | .eof => "EOF" | .ident => "IDENT" | .int => "INT" | .string => "STRING"
  | .intKw => "INT_KW" | .boolKw => "BOOL_KW" | .voidKw => "VOID_KW" | .structKw => "STRUCT"
  | .trueKw => "TRUE" | .falseKw => "FALSE" | .ifKw => "IF" | .elseKw => "ELSE" | .whileKw => "WHILE"
  | .returnKw => "RETURN" | .cin => "CIN" | .cout => "COUT"
  | .lbrace => "LBRACE" | .rbrace => "RBRACE" | .lparen => "LPAREN" | .rparen => "RPAREN"
  | .comma => "COMMA" | .semi => "SEMI" | .dot => "DOT" | .eq => "EQ" | .plus => "PLUS"
  | .minus => "MINUS" | .plusPlus => "PLUSPLUS" | .minusMinus => "MINUSMINUS" | .star => "STAR"
  | .slash => "SLASH" | .lt => "LT" | .gt => "GT" | .le => "LE" | .ge => "GE" | .eqEq => "EQEQ"
  | .ne => "NE" | .andAnd => "ANDAND" | .orOr => "OROR" | .bang => "BANG" | .write => "WRITE"
  | .read => "READ"

def keywords : List (String × Kind) :=
  [("int", .intKw), ("bool", .boolKw), ("void", .voidKw), ("struct", .structKw), ("true", .trueKw),
    ("false", .falseKw), ("if", .ifKw), ("else", .elseKw), ("while", .whileKw), ("return", .returnKw),
    ("cin", .cin), ("cout", .cout)]

/-- The kind of a word: a keyword, or else an identifier. -/
def Kind.ofWord (word : String) : Kind := (keywords.lookup word).getD .ident

/-- Whether a kind of token names one of the three types a function may return. -/
def Kind.isTypeWord : Kind → Bool
  | .intKw | .boolKw | .voidKw => true
  | _ => false

/-- Whether a kind of token is one of the six comparison signs. -/
def Kind.isComparison : Kind → Bool
  | .eqEq | .ne | .lt | .gt | .le | .ge => true
  | _ => false

end Token

/-- A token with the place it starts at. The text of a string literal leaves out its quotes and
keeps its escapes as they are written. -/
structure Token where
  kind : Token.Kind
  text : String
  start : Position
deriving DecidableEq, Repr

namespace Token

/-- The place after the token's text; a string literal counts without its quotes. -/
def stop (t : Token) : Position := t.start.right t.text.length

/-- The part of the source a token covers by its text. -/
def span (t : Token) : Span := ⟨t.start, t.stop⟩

/-- A token as a message shows it. -/
def shown (t : Token) : String :=
  if t.kind = .eof then "end-of-file" else Text.quoted t.text

end Token

end CMinusMinus
