import CZero.Image.Assemble
import CZero.Tree.Parse.Program

/-!
# The compiler

From source text to an image: the tree of the source is lowered, a `main` is asked for, and the result
is assembled.
-/

namespace CZero

/-- Checks a source and generates its code; it need not have a `main`. -/
def analyse (source : String) : Except Diagnostic Analysis :=
  (Program.ofSource source).analyse

/-- Compiles a source. -/
def compile (source : String) : Except Diagnostic Image := do
  let a ← analyse source
  a.requireMain
  a.assemble

end CZero
