import CZero.Text.Column

/-!
# JSON text

Values of the JSON format with two layouts: a compact one without blanks, and an indented one with
every item and field on a line of its own. Fields keep their order. Field names and words are
plain ASCII identifiers, which need no escapes.
-/

namespace CZero

/-- A JSON value whose strings are plain words. -/
inductive Json where
  | null
  | bool (b : Bool)
  | int (n : Int)
  | word (s : String)
  | list (items : List Json)
  | record (fields : List (String × Json))

namespace Json

/-- A word between quotes. -/
def quoted (s : String) : String :=
  "\"" ++ s ++ "\""

mutual

/-- A value without blanks. -/
def compact : Json → String
  | .null => "null"
  | .bool b => if b then "true" else "false"
  | .int n => toString n
  | .word s => quoted s
  | .list items => "[" ++ ",".intercalate (compactItems items) ++ "]"
  | .record fields => "\x7b" ++ ",".intercalate (compactFields fields) ++ "\x7d"

/-- The items of a list without blanks. -/
def compactItems : List Json → List String
  | [] => []
  | v :: vs => v.compact :: compactItems vs

/-- The fields of a record without blanks. -/
def compactFields : List (String × Json) → List String
  | [] => []
  | (k, v) :: fs => (quoted k ++ ":" ++ v.compact) :: compactFields fs

end

/-- Lines between brackets, or only the brackets if there are none. -/
def bracketed (indent : Nat) (opening closing : String) (lines : List String) : String :=
  if lines.isEmpty then opening ++ closing
  else opening ++ "\n" ++ ",\n".intercalate lines ++ "\n" ++ Text.blanks indent ++ closing

mutual

/-- A value over several lines, the first of which is already indented. -/
def pretty (indent : Nat) : Json → String
  | .null => "null"
  | .bool b => if b then "true" else "false"
  | .int n => toString n
  | .word s => quoted s
  | .list items => bracketed indent "[" "]" (prettyItems (indent + 2) items)
  | .record fields => bracketed indent "\x7b" "\x7d" (prettyFields (indent + 2) fields)

/-- The items of a list, one a line. -/
def prettyItems (indent : Nat) : List Json → List String
  | [] => []
  | v :: vs => (Text.blanks indent ++ v.pretty indent) :: prettyItems indent vs

/-- The fields of a record, one a line. -/
def prettyFields (indent : Nat) : List (String × Json) → List String
  | [] => []
  | (k, v) :: fs =>
    (Text.blanks indent ++ quoted k ++ ": " ++ v.pretty indent) :: prettyFields indent fs

end

end Json

end CZero
