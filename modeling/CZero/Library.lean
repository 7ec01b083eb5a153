import CZero.Ty

/-!
# The library

Programs talk to the outside through eight functions that the machine provides. They come before
all functions of a program in the numbering of functions, and in this order.
-/

namespace CZero

/-- A function that the machine provides. -/
inductive LibraryFn where
  /-- Reads an integer. -/
  | getint
  /-- Reads an integer as a floating-point number. -/
  | getdouble
  /-- Reads a character code. -/
  | getchar
  /-- Prints an integer. -/
  | putint
  /-- Prints a floating-point number. -/
  | putdouble
  /-- Prints the character with the given code. -/
  | putchar
  /-- Prints the text of a global. -/
  | putstr
  /-- Ends the line. -/
  | putln
deriving DecidableEq

/-- How many library functions there are. -/
def libraryCount : Nat := 8

namespace LibraryFn

/-- Every library function, in the order of their numbers. -/
def all : List LibraryFn :=
  [.getint, .getdouble, .getchar, .putint, .putdouble, .putchar, .putstr, .putln]

/-- The name of a library function. -/
def name : LibraryFn → String
  | .getint => "getint"
  | .getdouble => "getdouble"
  | .getchar => "getchar"
  | .putint => "putint"
  | .putdouble => "putdouble"
  | .putchar => "putchar"
  | .putstr => "putstr"
  | .putln => "putln"

/-- The types of the parameters. -/
def params : LibraryFn → List Ty
  | .putint | .putchar | .putstr => [.int]
  | .putdouble => [.double]
  | .getint | .getdouble | .getchar | .putln => []

/-- The result type. -/
def ret : LibraryFn → Ty
  | .getint | .getchar => .int
  | .getdouble => .double
  | .putint | .putdouble | .putchar | .putstr | .putln => .void

@[simp] theorem length_all : all.length = libraryCount := rfl

end LibraryFn

end CZero
