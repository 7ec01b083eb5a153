import CZero.Image.Basic
import CZero.Text.Column
import CZero.Text.Quoted

/-!
# Showing an image

The listing shows both tables line by line; the JSON form holds the same data for other programs.
-/

namespace CZero.Image

/-- The line of the `i`-th global. A scalar, and what is no text, is shown by its size. -/
def globalLine (i : Nat) (g : Global) : String :=
  let kind := if g.isConst then "const" else "var"
  let size := "<" ++ toString g.value.length ++ " bytes>"
  let shown := match g.text? with
    | some text => if g.value = Global.zeros then size else Text.quoteString text
    | none => size
  "  [" ++ toString i ++ "] " ++ kind ++ " " ++ shown ++ "\n"

/-- The line of the `i`-th instruction. -/
def instrLine (i : Nat) (instr : Instr) : String :=
  "    " ++ Text.alignRight 4 (toString i) ++ ": " ++ instr.text ++ "\n"

/-- The lines of the `i`-th function. -/
def functionLines (m : Image) (i : Nat) (f : Function) : String :=
  "  [" ++ toString i ++ "] " ++ (m.functionName? f).getD "?"
    ++ " ret=" ++ toString f.retSlots.toNat
    ++ " params=" ++ toString f.paramSlots.toNat
    ++ " locals=" ++ toString f.localSlots.toNat ++ "\n"
    ++ String.join (f.body.mapIdx instrLine)

/-- The listing of an image. -/
def listing (m : Image) : String :=
  "globals (" ++ toString m.globals.length ++ "):\n"
    ++ String.join (m.globals.mapIdx globalLine)
    ++ "functions (" ++ toString m.functions.length ++ "):\n"
    ++ String.join (m.functions.mapIdx m.functionLines)

/-- A global as JSON; its value is a list of bytes. -/
def globalJson (g : Global) : Json :=
  .record [
    ("is_const", .bool g.isConst),
    ("value", .list (g.value.map fun b => .int b.toNat))]

/-- A function as JSON. -/
def functionJson (f : Function) : Json :=
  .record [
    ("name", .int f.name.toNat),
    ("ret_slots", .int f.retSlots.toNat),
    ("param_slots", .int f.paramSlots.toNat),
    ("loc_slots", .int f.localSlots.toNat),
    ("body", .list (f.body.map Instr.json))]

/-- An image as JSON. -/
def json (m : Image) : Json :=
  .record [
    ("globals", .list (m.globals.map globalJson)),
    ("functions", .list (m.functions.map functionJson))]

end CZero.Image
