import CZero.Symbol.Table
import CZero.Text.Column
import CZero.Text.Quoted

/-!
# Showing the symbol table

One line for each symbol in the order of declaration, and under a function of the program its code.
-/

namespace CZero.Table

/-- The word that a listing has for a kind of symbol. -/
def kindText (s : Symbol) : String :=
  match s.meaning with
  | .value => if s.isConst then "const" else "var"
  | .function _ => "fn"
  | .literal => "str"

/-- The line of a symbol. -/
def symbolLine (s : Symbol) : String :=
  Text.alignLeft 6 (kindText s) ++ " " ++ Text.alignLeft 16 (Text.quoteString s.name) ++ " "
    ++ Text.alignLeft 24 s.ty.text ++ " layer=" ++ toString s.layer ++ " slot=" ++ s.slot.text
    ++ " init=" ++ toString s.isInit ++ "\n"

/-- The lines of a function's sizes and code. -/
def codeLines (f : FnInfo) : String :=
  "       args=" ++ toString f.params.length ++ " locals=" ++ toString f.locals.length
    ++ " body=" ++ toString f.body.length ++ "\n"
    ++ String.join (f.body.mapIdx fun i instr =>
      "       " ++ Text.alignRight 4 (toString i) ++ ": " ++ instr.text ++ "\n")

/-- The lines of a symbol and its code. -/
def symbolLines (s : Symbol) : String :=
  match s.function? with
  | some f => if f.isLibrary then symbolLine s else symbolLine s ++ codeLines f
  | none => symbolLine s

/-- The listing of a table. -/
def listing (t : Table) : String :=
  String.join (t.entries.map fun (_, s) => symbolLines s)

end CZero.Table
