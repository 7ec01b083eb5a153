import CZero.Binary64.Shortest
import CZero.Diagnostic
import CZero.Text.Quoted

/-!
# Tokens

A `Lexeme` is what a token says, a `Token` also where it stands. Type names are ordinary
identifiers; a string or character lexeme holds its text with the escapes already resolved.
-/

namespace CZero

/-- The reserved words. -/
inductive Keyword where
  | fnKw | letKw | constKw | asKw | whileKw | ifKw | elseKw | returnKw | breakKw | continueKw
deriving DecidableEq

namespace Keyword

/-- A keyword as it is written. -/
def spelling : Keyword → String
  | .fnKw => "fn"
  | .letKw => "let"
  | .constKw => "const"
  | .asKw => "as"
  | .whileKw => "while"
  | .ifKw => "if"
  | .elseKw => "else"
  | .returnKw => "return"
  | .breakKw => "break"
  | .continueKw => "continue"

/-- Every keyword. -/
def all : List Keyword :=
  [.fnKw, .letKw, .constKw, .asKw, .whileKw, .ifKw, .elseKw, .returnKw, .breakKw, .continueKw]

/-- The keyword that a word spells, if it is reserved. -/
def ofSpelling? (word : String) : Option Keyword :=
  all.find? (·.spelling == word)

end Keyword

/-- Operators and delimiters. -/
inductive Punct where
  | plus | minus | star | slash
  | assign | eq | ne | lt | gt | le | ge
  | arrow | lparen | rparen | lbrace | rbrace | comma | colon | semicolon
deriving DecidableEq

/-- An operator or delimiter as it is written. -/
def Punct.spelling : Punct → String
  | .plus => "+"
  | .minus => "-"
  | .star => "*"
  | .slash => "/"
  | .assign => "="
  | .eq => "=="
  | .ne => "!="
  | .lt => "<"
  | .gt => ">"
  | .le => "<="
  | .ge => ">="
  | .arrow => "->"
  | .lparen => "("
  | .rparen => ")"
  | .lbrace => "\x7b"
  | .rbrace => "\x7d"
  | .comma => ","
  | .colon => ":"
  | .semicolon => ";"

/-- What a token says. -/
inductive Lexeme where
  | ident (name : String)
  | uint (value : UInt64)
  | double (value : Binary64)
  | string (text : String)
  | char (c : Char)
  | keyword (k : Keyword)
  | punct (p : Punct)
  | endOfFile
deriving DecidableEq

/-- A lexeme as diagnostics and token listings name it. -/
def Lexeme.describe : Lexeme → String
  | .ident name => "identifier '" ++ name ++ "'"
  | .uint value => "integer " ++ toString value.toNat
  | .double value => "double " ++ value.text
  | .string text => "string " ++ Text.quoteString text
  | .char c => "char " ++ Text.quoteChar c
  | .keyword k => "'" ++ k.spelling ++ "'"
  | .punct p => "'" ++ p.spelling ++ "'"
  | .endOfFile => "end of file"

/-- A lexeme with the place of its first character and the place just past its last one. -/
structure Token where
  lexeme : Lexeme
  start : Position
  stop : Position
deriving DecidableEq

end CZero
