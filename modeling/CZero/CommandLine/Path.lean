/-!
# Paths

A path is a text of names between slashes. Slashes at its end, and a dot alone between slashes, do not
count; `..` leads up and is no name.
-/

namespace CZero.Path

/-- Drops slashes and single dots from the end of a path; the path is given backwards. -/
def trimEnd : List Char → List Char
  | '/' :: cs => trimEnd cs
  | '.' :: '/' :: cs => trimEnd cs
  | cs => cs

/-- The last name of a path that has no slash at its end; both are given backwards. A path that leads
up or nowhere does not end in a name. -/
def name? (trimmed : List Char) : Option (List Char) :=
  let name := trimmed.takeWhile (· != '/')
  if name = [] ∨ name = ['.'] ∨ name = ['.', '.'] then none else some name

/-- A name without its extension: all before the last dot, unless nothing stands before that. The name
is given and returned backwards. -/
def stem (name : List Char) : List Char :=
  match (name.dropWhile (· != '.')).drop 1 with
  | [] => name
  | before => before

/-- The number of characters of the extension of a name, zero for a name without one. -/
def extensionLength (name : List Char) : Nat :=
  name.length - (stem name).length - 1

/-- Puts an extension in the place of that of the last name, or behind a name without one. A path that
does not end in a name is left alone. The path is given backwards. -/
def setExtension (path : List Char) (extension : String) : String :=
  let trimmed := trimEnd path
  match name? trimmed with
  | none => String.ofList path.reverse
  | some name =>
    String.ofList ((stem name ++ trimmed.drop name.length).reverse) ++ "." ++ extension

/-- A path whose last name has the given extension in place of its own. The old extension is cut off
first. This shows only if two dots are all that is left of the name: they lead up, and the path is
left alone from there on. -/
def withExtension (path extension : String) : String :=
  let backwards := path.toList.reverse
  let cut := ((name? (trimEnd backwards)).map extensionLength).getD 0
  setExtension (backwards.drop cut) extension

end CZero.Path
