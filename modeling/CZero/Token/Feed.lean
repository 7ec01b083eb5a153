import CZero.Token.Scan

/-!
# The tokens to come

A `Feed` is the whole future of a source: its tokens in order, and then either the end of the text or
the fault that stops the scan. It is what a parser reads. A parser that cannot go on replaces its
feed by a stuck one, so that a fault found in the text and one found in the grammar look alike from
then on.
-/

namespace CZero

/-- The tokens that are still to come. -/
inductive Feed where
  | token (t : Token) (rest : Feed)
  /-- The end of the source. -/
  | done (position : Position)
  /-- Nothing can be read any more. -/
  | stuck (d : Diagnostic)

namespace Feed

/-- The feed of a text that is partly scanned. -/
def ofCursor (c : Cursor) : Feed :=
  match h : c.scan with
  | (.error d, _) => .stuck d
  | (.ok t, after) =>
    if ne : t.lexeme = .endOfFile then .done t.start
    else
      have := Cursor.scan_shorter h ne
      .token t (ofCursor after)
termination_by c.rest.length

/-- The feed of a source. -/
def ofSource (source : String) : Feed :=
  ofCursor (.ofSource source)

/-- The items of a feed, one by one; the end of the source is its last token. -/
def items : Feed → List (Except Diagnostic Token)
  | .token t rest => .ok t :: rest.items
  | .done p => [.ok ⟨.endOfFile, p, p⟩]
  | .stuck d => [.error d]

/-- How much there is to read. A stuck feed has nothing, and the end of the source still counts. -/
def size : Feed → Nat
  | .token _ rest => rest.size + 1
  | .done _ => 1
  | .stuck _ => 0

/-- The diagnostic for a parser that wanted one of the `expected` tokens next. -/
def complaint (expected : List String) : Feed → Diagnostic
  | .token t _ => ⟨.expectedToken expected t.lexeme.describe, t.start⟩
  | .done p => ⟨.expectedToken expected Lexeme.endOfFile.describe, p⟩
  | .stuck d => d

@[simp] theorem size_token (t : Token) (rest : Feed) : (token t rest).size = rest.size + 1 := rfl
@[simp] theorem size_done (p : Position) : (done p).size = 1 := rfl
@[simp] theorem size_stuck (d : Diagnostic) : (stuck d).size = 0 := rfl

end Feed

/-- All tokens of a source, the end of the source last, or its first fault. -/
def tokenize (source : String) : Except Diagnostic (List Token) :=
  (Feed.ofSource source).items.mapM id

end CZero
