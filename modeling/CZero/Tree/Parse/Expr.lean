import CZero.Tree.Parse.Basic

/-!
# Parsing expressions

One function for each level of the grammar. Operators of one level associate to the left, and a
comparison has at most one operator. Each construct takes as much as it can: `x = 1 + 2` assigns the
sum, also where it stands as an operand.
-/

namespace CZero

/-- The operator of a sum that a token spells. -/
def ArithOp.ofSum? : Punct → Option ArithOp
  | .plus => some .add
  | .minus => some .sub
  | _ => none

/-- The operator of a term that a token spells. -/
def ArithOp.ofTerm? : Punct → Option ArithOp
  | .star => some .mul
  | .slash => some .div
  | _ => none

/-- The comparison that a token spells. -/
def CompareOp.ofPunct? : Punct → Option CompareOp
  | .eq => some .eq
  | .ne => some .ne
  | .lt => some .lt
  | .gt => some .gt
  | .le => some .le
  | .ge => some .ge
  | _ => none

namespace Parse

/-- An expression whose next token is looked at: it is cut off if there is none. -/
def followed (e : Expr) : Feed → Expr
  | .stuck d => .cutOff e d
  | _ => e

/-- A name whose next token is looked at and says that it is read. -/
def loaded (x : Ident) : Feed → Expr
  | .stuck d => .hole d
  | _ => .load x

/-- What may start a primary expression. -/
def primaryStarts : List String :=
  ["identifier", "integer", "double", "string", "char", "'('"]

/-- No expression can be read. -/
def noExpr (f : Feed) : Expr × f.After :=
  (.hole (f.complaint primaryStarts), .stop f (f.complaint primaryStarts))

mutual

/-- An expression: a sum, or a comparison of two sums. -/
def expr (f : Feed) : Expr × f.After :=
  let (lhs, r) := sum f
  match r.1.operator? CompareOp.ofPunct? with
  | some (op, rest) =>
    let (rhs, r') := sum rest.1
    (.compare op lhs rhs, r.andThen (rest.andThen r'))
  | none => (lhs, r)
termination_by f.size * 8 + 6
decreasing_by
  · omega
  · have := rest.2; have := r.le; omega

/-- A sum of terms. -/
def sum (f : Feed) : Expr × f.After :=
  let (lhs, r) := term f
  let (e, r') := sumTail lhs r.1
  (e, r.andMore r')
termination_by f.size * 8 + 5
decreasing_by
  · omega
  · have := r.le; omega

/-- The terms that follow `lhs` in a sum. -/
def sumTail (lhs : Expr) (f : Feed) : Expr × f.Within :=
  match f.operator? ArithOp.ofSum? with
  | some (op, rest) =>
    let (rhs, r) := term rest.1
    let (e, r') := sumTail (.arith op lhs rhs) r.1
    (e, (rest.andThen (r.andMore r')).within)
  | none => (lhs, .all f)
termination_by f.size * 8
decreasing_by
  · have := rest.2; omega
  · have := rest.2; have := r.le; omega

/-- A product of casts. -/
def term (f : Feed) : Expr × f.After :=
  let (lhs, r) := cast f
  let (e, r') := termTail lhs r.1
  (e, r.andMore r')
termination_by f.size * 8 + 4
decreasing_by
  · omega
  · have := r.le; omega

/-- The casts that follow `lhs` in a product. -/
def termTail (lhs : Expr) (f : Feed) : Expr × f.Within :=
  match f.operator? ArithOp.ofTerm? with
  | some (op, rest) =>
    let (rhs, r) := cast rest.1
    let (e, r') := termTail (.arith op lhs rhs) r.1
    (e, (rest.andThen (r.andMore r')).within)
  | none => (lhs, .all f)
termination_by f.size * 8
decreasing_by
  · have := rest.2; omega
  · have := rest.2; have := r.le; omega

/-- An operand with an optional type to regard it as. -/
def cast (f : Feed) : Expr × f.After :=
  let (e, r) := unary f
  match r.1.after? (.keyword .asKw) with
  | some rest =>
    match rest.1.ident with
    | (.ok type, r') => (followed (.cast e type) r'.1, r.andThen (rest.andThen r'))
    | (.error d, _) => (.cutOff e d, .stop f d)
  | none => (followed e r.1, r)
termination_by f.size * 8 + 3
decreasing_by omega

/-- A primary expression under any number of minus signs. -/
def unary (f : Feed) : Expr × f.After :=
  match f.after? (.punct .minus) with
  | some rest =>
    let (e, r) := unary rest.1
    (e.negate, rest.andThen r)
  | none => primary f
termination_by f.size * 8 + 2
decreasing_by
  · have := rest.2; omega
  · omega

/-- A literal, a name, an assignment, a call, or an expression in parentheses. -/
def primary (f : Feed) : Expr × f.After :=
  match f with
  | .token t rest =>
    match t.lexeme with
    | .uint value => (.uint value, (Feed.Tail.first t rest).alone)
    | .double value => (.double value, (Feed.Tail.first t rest).alone)
    | .string text => (.string text, (Feed.Tail.first t rest).alone)
    | .char c => (.char c, (Feed.Tail.first t rest).alone)
    | .ident name =>
      match rest.after? (.punct .lparen) with
      | some r =>
        match r.1.after? (.punct .rparen) with
        | some r' =>
          (.call ⟨name, t.start⟩ .close, (Feed.Tail.first t rest).andThen (r.andThen r'.alone))
        | none =>
          let (as, r') := args r.1
          (.call ⟨name, t.start⟩ as, (Feed.Tail.first t rest).andThen (r.andThen r'))
      | none =>
        match rest.after? (.punct .assign) with
        | some r =>
          let (e, r') := expr r.1
          (.assign ⟨name, t.start⟩ e, (Feed.Tail.first t rest).andThen (r.andThen r'))
        | none => (loaded ⟨name, t.start⟩ rest, (Feed.Tail.first t rest).alone)
    | .punct p =>
      if p = .lparen then
        let (e, r) := expr rest
        match r.1.after? (.punct .rparen) with
        | some r' => (.paren e, (Feed.Tail.first t rest).andThen (r.andToken r'))
        | none =>
          let d := r.1.complaint ["')'"]
          (.cutOff e d, .stop _ d)
      else noExpr (.token t rest)
    | .keyword _ | .endOfFile => noExpr (.token t rest)
  | .done p => noExpr (.done p)
  | .stuck d => noExpr (.stuck d)
termination_by f.size * 8 + 1
decreasing_by
  · have := r.2; simp only [Feed.size_token]; omega
  · have := r.2; simp only [Feed.size_token]; omega
  · simp only [Feed.size_token]; omega

/-- One or more arguments and the closing parenthesis. -/
def args (f : Feed) : Args × f.After :=
  let (e, r) := expr f
  match r.1.after? (.punct .comma) with
  | some rest =>
    let (more, r') := args rest.1
    (.arg e more, r.andThen (rest.andThen r'))
  | none =>
    match r.1.after? (.punct .rparen) with
    | some rest => (.arg e .close, r.andToken rest)
    | none =>
      let d := r.1.complaint ["')'"]
      (.arg e (.cutOff d), .stop f d)
termination_by f.size * 8 + 7
decreasing_by
  · omega
  · have := rest.2; have := r.le; omega

end

end Parse

end CZero
