import Flowline.Text.Bytes

/-!
# Tokens

The words of program text: identifiers, integer and string literals, the keywords, the operators
and the delimiters, each with the line and column at which it starts.  What starts no word is an
illegal token of one byte.
-/

namespace Flowline.Source

/-- The classes of tokens. -/
inductive TokenKind where
  | eof
  | illegal
  | ident
  | int
  | string
  | kwIf
  | kwElse
  | kwSwitch
  | kwDefault
  | kwExit
  | kwReturn
  | kwTrue
  | kwFalse
  | kwBit
  | kwInt
  | kwVarbit
  | kwBool
  | assign
  | eq
  | ne
  | lt
  | gt
  | and
  | or
  | not
  | mask
  | ampersand
  | colon
  | lparen
  | rparen
  | lbrace
  | rbrace
  | lbracket
  | rbracket
  | semicolon
  | comma
  | dot
  deriving DecidableEq, Repr

namespace TokenKind

/-- The name of a class in messages: a keyword, operator or delimiter is its own name. -/
def name : TokenKind → Text
  | eof => "EOF"
  | illegal => "ILLEGAL"
  | ident => "IDENT"
  | int => "INT"
  | string => "STRING"
  | kwIf => "if"
  | kwElse => "else"
  | kwSwitch => "switch"
  | kwDefault => "default"
  | kwExit => "exit"
  | kwReturn => "return"
  | kwTrue => "true"
  | kwFalse => "false"
  | kwBit => "bit"
  | kwInt => "int"
  | kwVarbit => "varbit"
  | kwBool => "bool"
  | assign => "="
  | eq => "=="
  | ne => "!="
  | lt => "<"
  | gt => ">"
  | and => "&&"
  | or => "||"
  | not => "!"
  | mask => "&&&"
  | ampersand => "&"
  | colon => ":"
  | lparen => "("
  | rparen => ")"
  | lbrace => "\x7b"
  | rbrace => "\x7d"
  | lbracket => "["
  | rbracket => "]"
  | semicolon => ";"
  | comma => ","
  | dot => "."

/-- The keywords. -/
def keywords : List TokenKind :=
  [kwIf, kwElse, kwSwitch, kwDefault, kwExit, kwReturn, kwTrue, kwFalse, kwBit, kwInt, kwVarbit,
    kwBool]

/-- The class of a word made of letters and digits: a keyword if it is spelled like one. -/
def ofWord (w : Text) : TokenKind := (keywords.find? fun k => k.name == w).getD ident

/-- Whether a token begins a type. -/
def beginsType : TokenKind → Bool
  | kwBit | kwInt | kwVarbit | kwBool => true
  | _ => false

end TokenKind

/-- A token with its spelling and the place where it starts. -/
structure Token where
  kind : TokenKind
  literal : Text
  line : Nat
  column : Nat
  deriving DecidableEq, Repr

end Flowline.Source
