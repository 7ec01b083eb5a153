import CZero.Tree.Parse.Expr

/-!
# Parsing declarations and statements

A statement that breaks off leaves a stuck feed, and the block around it is cut off there. Only a
declaration keeps the missing semicolon itself, because its name counts only after the semicolon.
-/

namespace CZero.Parse

/-! ### Declarations -/

/-- The value that a declaration starts with. A constant needs one. -/
def initial (isConst : Bool) (f : Feed) : Option Expr × f.Within :=
  match f.after? (.punct .assign) with
  | some rest =>
    let (e, r) := expr rest.1
    (some e, (rest.andThen r).within)
  | none =>
    if isConst then
      let d := f.complaint ["'='"]
      (some (.hole d), (Feed.After.stop f d).within)
    else (none, .all f)

/-- A declaration after its keyword; a fault if it breaks off before its type is known. -/
def decl (isConst : Bool) (f : Feed) : Except Diagnostic Decl × f.After :=
  match f.ident with
  | (.error d, r) => (.error d, r)
  | (.ok name, r) =>
    let colon := r.1.skip .colon
    match colon.1.ident with
    | (.error d, r') => (.error d, r.andThen (colon.andThen r'))
    | (.ok type, r') =>
      let (init, r'') := initial isConst r'.1
      match r''.1.after? (.punct .semicolon) with
      | some rest =>
        (.ok ⟨isConst, name, type, init, none⟩,
          r.andThen (colon.andThen ((r'.andMore r'').andToken rest)))
      | none =>
        let d := r''.1.complaint ["';'"]
        (.ok ⟨isConst, name, type, init, some d⟩, .stop f d)

/-! ### Statements -/

/-- A declaration as a statement. -/
def declStmt : Except Diagnostic Decl → Stmt
  | .ok d => .decl d
  | .error d => .expr (.hole d)

/-- The optional value of a `return`, and its semicolon. -/
def result (f : Feed) : Option Expr × f.After :=
  match f.after? (.punct .semicolon) with
  | some rest => (none, rest.alone)
  | none =>
    let (e, r) := expr f
    (some e, r.andThen (r.1.skip .semicolon))

/-- An expression as a statement. -/
def exprStmt (f : Feed) : Stmt × f.After :=
  let (e, r) := expr f
  (.expr e, r.andThen (r.1.skip .semicolon))

mutual

/-- A statement. -/
def stmt (f : Feed) : Stmt × f.After :=
  match f with
  | .token t rest =>
    match t.lexeme with
    | .keyword k =>
      match k with
      | .letKw =>
        let (d, r) := decl false rest
        (declStmt d, (Feed.Tail.first t rest).andThen r)
      | .constKw =>
        let (d, r) := decl true rest
        (declStmt d, (Feed.Tail.first t rest).andThen r)
      | .ifKw =>
        let (c, r) := ifChain rest
        (.cond c, (Feed.Tail.first t rest).andThen r)
      | .whileKw =>
        let (c, r) := expr rest
        let (b, r') := block r.1
        (.loop c b, (Feed.Tail.first t rest).andThen (r.andThen r'))
      | .returnKw =>
        let (e, r) := result rest
        (.ret t.start e, (Feed.Tail.first t rest).andThen r)
      | .fnKw | .asKw | .elseKw | .breakKw | .continueKw => exprStmt (.token t rest)
    | .punct p =>
      if p = .lbrace then
        let (b, r) := body rest
        (.block b, (Feed.Tail.first t rest).andThen r)
      else if p = .semicolon then (.empty, (Feed.Tail.first t rest).alone)
      else exprStmt (.token t rest)
    | .ident _ | .uint _ | .double _ | .string _ | .char _ | .endOfFile => exprStmt (.token t rest)
  | .done p => exprStmt (.done p)
  | .stuck d => exprStmt (.stuck d)
termination_by f.size * 8 + 3
decreasing_by
  · simp only [Feed.size_token]; omega
  · have := r.le; simp only [Feed.size_token]; omega
  · simp only [Feed.size_token]; omega

/-- A block: statements between braces. -/
def block (f : Feed) : Block × f.After :=
  match f.after? (.punct .lbrace) with
  | some rest =>
    let (b, r) := body rest.1
    (b, rest.andThen r)
  | none =>
    let d := f.complaint ["'\x7b'"]
    (.cutOff d, .stop f d)
termination_by f.size * 8 + 1
decreasing_by have := rest.2; omega

/-- The statements of a block up to its closing brace. -/
def body (f : Feed) : Block × f.After :=
  match f.after? (.punct .rbrace) with
  | some rest => (.close, rest.alone)
  | none =>
    if f.size = 0 then (.cutOff (f.complaint []), .stop f (f.complaint []))
    else
      let (s, r) := stmt f
      let (b, r') := body r.1
      (.stmt s b, r.andThen r')
termination_by f.size * 8 + 4
decreasing_by
  · omega
  · have := r.2; omega

/-- A conditional statement after its keyword. -/
def ifChain (f : Feed) : IfChain × f.After :=
  let (c, r) := expr f
  let (b, r') := block r.1
  let (e, r'') := otherwise r'.1
  (.mk c b e, r.andThen (r'.andMore r''))
termination_by f.size * 8 + 2
decreasing_by
  · have := r.le; omega
  · have := r.le; have := r'.le; omega

/-- What follows a conditional block. -/
def otherwise (f : Feed) : Else × f.Within :=
  match f.after? (.keyword .elseKw) with
  | none => (.absent, .all f)
  | some rest =>
    match rest.1.after? (.keyword .ifKw) with
    | some r =>
      let (c, r') := ifChain r.1
      (.chain c, (rest.andThen (r.andThen r')).within)
    | none =>
      let (b, r) := block rest.1
      (.block b, (rest.andThen r).within)
termination_by f.size * 8
decreasing_by
  · have := rest.2; have := r.2; omega
  · have := rest.2; omega

end

end CZero.Parse
