import CZero.Machine.Fault

/-!
# The console

A running program reads integers from a queue and appends text to its output.
-/

namespace CZero

/-- The outside of a running program. -/
structure Console where
  /-- Values that were not read yet, the next one first. -/
  input : List Int64
  /-- Everything that was printed. -/
  output : String
deriving DecidableEq

namespace Console

/-- A console that will serve the given values. -/
def ofInput (values : List Int64) : Console :=
  ⟨values, ""⟩

/-- Queues one more value. -/
def pushInput (c : Console) (value : Int64) : Console :=
  { c with input := c.input ++ [value] }

/-- Takes the next value. -/
def read (c : Console) : Except Fault Int64 × Console :=
  match c.input with
  | value :: rest => (.ok value, { c with input := rest })
  | [] => (.error .inputExhausted, c)

/-- Prints a text. -/
def write (c : Console) (text : String) : Console :=
  { c with output := c.output ++ text }

/-- Takes the output away. -/
def takeOutput (c : Console) : String × Console :=
  (c.output, { c with output := "" })

end Console

end CZero
