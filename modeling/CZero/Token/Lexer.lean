import CZero.Token.Scan

/-!
# A lexer with look-ahead

A lexer hands out the tokens of a source one by one. `peek` scans a token ahead and keeps it for the
next request, so its own place may be one token further than what was handed out. A fault is never
kept: a request after it scans on from where the failed scan stopped.
-/

namespace CZero

/-- A source that is being read token by token. -/
structure Lexer where
  cursor : Cursor
  /-- A token that was scanned but not handed out. -/
  ahead : Option Token
  /-- Whether the end of the source or a fault was handed out by `pull`. -/
  finished : Bool
deriving DecidableEq

namespace Lexer

/-- A lexer before the first token of a source. -/
def ofSource (source : String) : Lexer :=
  ⟨.ofSource source, none, false⟩

/-- Where the next scan will start. -/
def position (l : Lexer) : Position :=
  l.cursor.position

/-- Hands out the next token. -/
def next (l : Lexer) : Except Diagnostic Token × Lexer :=
  match l.ahead with
  | some t => (.ok t, { l with ahead := none })
  | none =>
    let (result, cursor) := l.cursor.scan
    (result, { l with cursor })

/-- Shows the next token without handing it out. -/
def peek (l : Lexer) : Except Diagnostic Token × Lexer :=
  match l.ahead with
  | some t => (.ok t, l)
  | none =>
    match l.cursor.scan with
    | (.ok t, cursor) => (.ok t, { l with cursor, ahead := some t })
    | (.error d, cursor) => (.error d, { l with cursor })

/-- Hands out the tokens up to the end of the source, or up to the first fault, and then no more. -/
def pull (l : Lexer) : Option (Except Diagnostic Token) × Lexer :=
  if l.finished then (none, l)
  else
    let (result, l) := l.next
    let finished := match result with
      | .ok t => t.lexeme == .endOfFile
      | .error _ => true
    (some result, { l with finished })

end Lexer

end CZero
