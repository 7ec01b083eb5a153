/-!
# Types

The language has three named types. Functions have a type of their own, which no program can
write down: it describes their symbol-table entries.
-/

namespace CZero

/-- The type of a value, of a missing value (`void`), or of a function. -/
inductive Ty where
  | int
  | double
  | void
  | func (params : List Ty) (ret : Ty)

namespace Ty

mutual

/-- Equality of types is decided part by part. -/
def decEq : (a b : Ty) → Decidable (a = b)
  | .int, .int => isTrue rfl
  | .int, .double => isFalse nofun
  | .int, .void => isFalse nofun
  | .int, .func .. => isFalse nofun
  | .double, .int => isFalse nofun
  | .double, .double => isTrue rfl
  | .double, .void => isFalse nofun
  | .double, .func .. => isFalse nofun
  | .void, .int => isFalse nofun
  | .void, .double => isFalse nofun
  | .void, .void => isTrue rfl
  | .void, .func .. => isFalse nofun
  | .func .., .int => isFalse nofun
  | .func .., .double => isFalse nofun
  | .func .., .void => isFalse nofun
  | .func ps r, .func qs s =>
    match decEqList ps qs, decEq r s with
    | isTrue hp, isTrue hr => isTrue (by rw [hp, hr])
    | isFalse hp, _ => isFalse fun h => hp (by injection h)
    | _, isFalse hr => isFalse fun h => hr (by injection h)

/-- Equality of parameter lists. -/
def decEqList : (as bs : List Ty) → Decidable (as = bs)
  | [], [] => isTrue rfl
  | [], _ :: _ => isFalse nofun
  | _ :: _, [] => isFalse nofun
  | a :: as, b :: bs =>
    match decEq a b, decEqList as bs with
    | isTrue ha, isTrue hs => isTrue (by rw [ha, hs])
    | isFalse ha, _ => isFalse fun h => ha (by injection h)
    | _, isFalse hs => isFalse fun h => hs (by injection h)

end

instance : DecidableEq Ty := decEq

/-- The type with the given name, if there is one. -/
def ofName? (name : String) : Option Ty :=
  if name = "int" then some .int
  else if name = "double" then some .double
  else if name = "void" then some .void
  else none

/-- Whether a variable may have this type. -/
def isStorable : Ty → Bool
  | .int | .double => true
  | _ => false

/-- How many stack slots a result of this type takes: one for `int`, none otherwise. -/
def returnSlots : Ty → Nat
  | .int => 1
  | _ => 0

mutual

/-- A type as it is shown, for example `fn(int, double) -> void`. -/
def text : Ty → String
  | .int => "int"
  | .double => "double"
  | .void => "void"
  | .func params ret => "fn(" ++ ", ".intercalate (texts params) ++ ") -> " ++ ret.text

/-- The types of a parameter list as they are shown. -/
def texts : List Ty → List String
  | [] => []
  | t :: ts => t.text :: texts ts

end

end Ty

end CZero
