import CZero.Image.Basic
import CZero.Lowering.Program

/-!
# Assembling an image

The globals of an image are the variables and string literals of a program in the order of their
slots, and then the names of all functions in the order of their numbers. So function `i` has its name
in global `n + i`, where `n` is the number of variables and literals. The functions of an image are
those of the program without the library.
-/

namespace CZero.Analysis

/-- The global of a variable or a string literal. -/
def globalOf (s : Symbol) : Global :=
  match s.meaning with
  | .literal => .ofText s.name
  | _ => .scalar s.isConst

/-- The global with the name of a function. -/
def nameOf (a : Analysis) (f : FnInfo) : Except Diagnostic Global :=
  match a.table.functionName? f.index with
  | some name => .ok (.ofText name)
  | none => .error ⟨.unresolvedOperand ("function " ++ toString f.index), a.finish⟩

/-- A function of the image. Every operand has to be filled in. -/
def functionOf (a : Analysis) (slots : Nat) (f : FnInfo) : Except Diagnostic Function :=
  match f.body.find? (!·.isWellFormed) with
  | some i => .error ⟨.unresolvedOperand i.text, a.finish⟩
  | none => .ok {
      name := UInt32.ofNat (slots + f.index)
      retSlots := UInt32.ofNat f.returnSlots
      paramSlots := UInt32.ofNat f.params.length
      localSlots := UInt32.ofNat f.locals.length
      body := f.body }

/-- The image of an analysed program. -/
def assemble (a : Analysis) : Except Diagnostic Image := do
  let data := a.table.globals.map globalOf
  let functions := a.table.allFunctions
  let names ← functions.mapM a.nameOf
  let own ← (functions.filter (entryIndex ≤ ·.index)).mapM (a.functionOf data.length)
  return ⟨data ++ names, own⟩

/-- Refuses a program without `main`. -/
def requireMain (a : Analysis) : Except Diagnostic Unit :=
  match a.main with
  | some _ => .ok ()
  | none => .error ⟨.mainMissing, a.finish⟩

end CZero.Analysis
