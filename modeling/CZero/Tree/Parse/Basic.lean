import CZero.Token.Feed
import CZero.Tree.Basic

/-!
# Parsing

The parser reads a feed by recursive descent and always returns a tree. When it cannot go on it puts
the diagnostic into the tree and goes on with a stuck feed, which ends every construct that is still
open.

Every construct takes at least one token from its feed unless the feed is stuck. The functions carry
this in their result types, and that is why the parser ends: nesting and repetition both read on in a
smaller feed.
-/

namespace CZero.Feed

/-- What one token leaves of the feed `f`. -/
abbrev Tail (f : Feed) : Type :=
  { r : Feed // r.size < f.size }

/-- What a construct leaves of the feed `f`: less than `f`, unless `f` is stuck. -/
abbrev After (f : Feed) : Type :=
  { r : Feed // r.size ≤ f.size - 1 }

/-- What an optional continuation leaves of the feed `f`: at most all of it. -/
abbrev Within (f : Feed) : Type :=
  { r : Feed // r.size ≤ f.size }

/-! ### One after the other -/

/-- What a token leaves is what a construct of one token leaves. -/
def Tail.alone {f : Feed} (r : f.Tail) : f.After :=
  ⟨r.1, Nat.le_sub_one_of_lt r.2⟩

/-- A token and then a construct. -/
def Tail.andThen {f : Feed} (g : f.Tail) (r : g.1.After) : f.After :=
  ⟨r.1, Nat.le_trans r.2 (Nat.sub_le_sub_right (Nat.le_of_lt g.2) 1)⟩

/-- A construct, and nothing has to come. -/
def After.within {f : Feed} (r : f.After) : f.Within :=
  ⟨r.1, Nat.le_trans r.2 (Nat.sub_le ..)⟩

/-- A construct and then another one. -/
def After.andThen {f : Feed} (g : f.After) (r : g.1.After) : f.After :=
  ⟨r.1, Nat.le_trans r.2 (Nat.le_trans (Nat.sub_le ..) g.2)⟩

/-- A construct and then a token. -/
def After.andToken {f : Feed} (g : f.After) (r : g.1.Tail) : f.After :=
  g.andThen r.alone

/-- A construct and then a continuation. -/
def After.andMore {f : Feed} (g : f.After) (r : g.1.Within) : f.After :=
  ⟨r.1, Nat.le_trans r.2 g.2⟩

/-- A continuation that is not there. -/
def Within.all (f : Feed) : f.Within :=
  ⟨f, Nat.le_refl _⟩

/-- A continuation and then another one. -/
def Within.andMore {f : Feed} (g : f.Within) (r : g.1.Within) : f.Within :=
  ⟨r.1, Nat.le_trans r.2 g.2⟩

/-- A continuation and then a construct. -/
def Within.andThen {f : Feed} (g : f.Within) (r : g.1.After) : f.After :=
  ⟨r.1, Nat.le_trans r.2 (Nat.sub_le_sub_right g.2 1)⟩

/-- Gives up reading. -/
def After.stop (f : Feed) (d : Diagnostic) : f.After :=
  ⟨.stuck d, Nat.zero_le _⟩

/-- What is left after the first token. -/
def Tail.first (t : Token) (rest : Feed) : (Feed.token t rest).Tail :=
  ⟨rest, Nat.lt_succ_self _⟩

theorem After.le {f : Feed} (r : f.After) : r.1.size ≤ f.size :=
  r.within.2

/-! ### Reading one token -/

/-- The feed after the lexeme `l`, if that comes next. -/
def after? (l : Lexeme) : (f : Feed) → Option f.Tail
  | .token t rest => if t.lexeme = l then some (.first t rest) else none
  | .done _ => none
  | .stuck _ => none

/-- The operator that comes next, if it is one of those that `pick` knows, and the feed after it. -/
def operator? {α : Type} (pick : Punct → Option α) : (f : Feed) → Option (α × f.Tail)
  | .token t rest =>
    match t.lexeme with
    | .punct p => (pick p).map fun op => (op, .first t rest)
    | _ => none
  | .done _ => none
  | .stuck _ => none

/-- The feed after the delimiter `p`, which has to come next. -/
def skip (p : Punct) (f : Feed) : f.After :=
  match f.after? (.punct p) with
  | some rest => rest.alone
  | none => .stop f (f.complaint ["'" ++ p.spelling ++ "'"])

/-- The identifier that has to come next, and the feed after it. -/
def ident (f : Feed) : Except Diagnostic Ident × f.After :=
  match f with
  | .token t rest =>
    match t.lexeme with
    | .ident name => (.ok ⟨name, t.start⟩, (Tail.first t rest).alone)
    | _ => noIdent (.token t rest)
  | .done p => noIdent (.done p)
  | .stuck d => noIdent (.stuck d)
where
  /-- No identifier comes next. -/
  noIdent (f : Feed) : Except Diagnostic Ident × f.After :=
    (.error (f.complaint ["identifier"]), .stop f (f.complaint ["identifier"]))

end CZero.Feed
