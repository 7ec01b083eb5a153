import CZero.Tree.Parse.Stmt

/-!
# Parsing programs

A program is read part by part until its source ends. A part that breaks off before anything in it
can be checked is no part: the diagnostic then stands at the end of the program instead.
-/

namespace CZero.Parse

/-- Whether a parameter is a constant, and the feed at its name. -/
def constness (f : Feed) : Bool × f.Within :=
  match f.after? (.keyword .constKw) with
  | some rest => (true, rest.alone.within)
  | none => (false, .all f)

/-- A parameter. -/
def param (f : Feed) : Except Diagnostic Param × f.After :=
  let (isConst, start) := constness f
  match start.1.ident with
  | (.error d, r) => (.error d, start.andThen r)
  | (.ok name, r) =>
    let colon := r.1.skip .colon
    match colon.1.ident with
    | (.error d, r') => (.error d, start.andThen (r.andThen (colon.andThen r')))
    | (.ok type, r') => (.ok ⟨isConst, name, type⟩, start.andThen (r.andThen (colon.andThen r')))

/-- One or more parameters and the closing parenthesis. -/
def params (f : Feed) : List Param × f.After :=
  match param f with
  | (.error d, _) => ([], .stop f d)
  | (.ok p, r) =>
    match r.1.after? (.punct .comma) with
    | some rest =>
      let (ps, r') := params rest.1
      (p :: ps, r.andThen (rest.andThen r'))
    | none => ([p], r.andThen (r.1.skip .rparen))
termination_by f.size
decreasing_by have := rest.2; have := r.le; omega

/-- The parameters of a function after the opening parenthesis. -/
def paramList (f : Feed) : List Param × f.After :=
  match f.after? (.punct .rparen) with
  | some rest => ([], rest.alone)
  | none => params f

/-- A function after its keyword; a fault if it breaks off before its parameters. -/
def fnItem (f : Feed) : Except Diagnostic FnItem × f.After :=
  match f.ident with
  | (.error d, r) => (.error d, r)
  | (.ok name, r) =>
    match r.1.after? (.punct .lparen) with
    | none =>
      let d := r.1.complaint ["'('"]
      (.error d, .stop f d)
    | some rest =>
      let (ps, r') := paramList rest.1
      let arrow := r'.1.skip .arrow
      let (type, r'') := arrow.1.ident
      let (b, last) := block r''.1
      (.ok ⟨name, ps, type, b⟩,
        r.andThen (rest.andThen (r'.andThen (arrow.andThen (r''.andThen last)))))

/-- What may start a part of a program. -/
def itemStarts : List String :=
  ["'fn'", "'let'", "'const'"]

/-- The part of a program that starts with the keyword `k`; a fault if it breaks off before anything in
it can be checked, or if no part starts so. -/
def item (t : Token) (k : Keyword) (rest : Feed) : Except Diagnostic Item × rest.After :=
  match k with
  | .fnKw =>
    let (f, r) := fnItem rest
    (f.map .fn, r)
  | .letKw =>
    let (d, r) := decl false rest
    (d.map .decl, r)
  | .constKw =>
    let (d, r) := decl true rest
    (d.map .decl, r)
  | .asKw | .whileKw | .ifKw | .elseKw | .returnKw | .breakKw | .continueKw =>
    let d := (Feed.token t rest).complaint itemStarts
    (.error d, .stop rest d)

/-- The parts of a program, and what ends it. -/
def items (f : Feed) : List Item × Except Diagnostic Position :=
  match f with
  | .done p => ([], .ok p)
  | .stuck d => ([], .error d)
  | .token t rest =>
    match t.lexeme with
    | .keyword k =>
      match item t k rest with
      | (.ok i, r) =>
        let (more, finish) := items r.1
        (i :: more, finish)
      | (.error d, _) => ([], .error d)
    | _ => ([], .error ((Feed.token t rest).complaint itemStarts))
termination_by f.size
decreasing_by have := r.le; simp only [Feed.size_token]; omega

end CZero.Parse

namespace CZero

/-- The tree of a feed. -/
def Program.ofFeed (f : Feed) : Program :=
  let (items, finish) := Parse.items f
  ⟨items, finish⟩

/-- The tree of a source. -/
def Program.ofSource (source : String) : Program :=
  .ofFeed (.ofSource source)

end CZero
