import CZero.Compiler
import CZero.Image.Listing
import CZero.Image.Write
import CZero.Symbol.Listing

/-!
# Reports

Compiling can print what it found on the way: the tokens, the symbol table, the image as a listing or
as JSON. Printing the tokens replaces the compilation; the other parts follow each other in this
order.
-/

namespace CZero

/-- Which parts a report has. -/
structure Listings where
  tokens : Bool := false
  symbols : Bool := false
  instructions : Bool := false
  json : Bool := false
deriving DecidableEq

/-- What a source was compiled to: a report, and an image unless only tokens were asked for. -/
structure Product where
  report : String
  image : Option Image
deriving DecidableEq

/-- The line of a token. -/
def Token.line (t : Token) : String :=
  t.start.text ++ " " ++ t.lexeme.describe ++ "\n"

namespace Listings

/-- A part of a report that is there only if it is asked for. -/
def part (wanted : Bool) (text : String) : String :=
  if wanted then text else ""

/-- Compiles a source and reports on it. -/
def compile (l : Listings) (source : String) : Except Diagnostic Product := do
  if l.tokens then
    let tokens ← tokenize source
    return ⟨String.join (tokens.map Token.line), none⟩
  let a ← analyse source
  a.requireMain
  let image ← a.assemble
  let report := part l.symbols a.table.listing ++ part l.instructions image.listing
    ++ part l.json (image.json.pretty 0 ++ "\n")
  return ⟨report, some image⟩

end Listings

end CZero
