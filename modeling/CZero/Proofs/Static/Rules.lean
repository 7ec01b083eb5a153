import CZero.Proofs.Codegen.Program

/-!
# The static rules

What a tree has to keep beyond the grammar, said of the tree alone: there are no slots and no code here,
and nothing is done in any order.

A function is seen as the list of its clauses, in the order of the source: expressions, declarations and
returns, whatever blocks they stand in, because blocks open no scope. What a clause can see depends on
what comes before it.

    let a: int;                      globals    own                  clause
    fn f(b: int) -> int {
        let a: int = a + b;          f, a       b                    let a: int = a + b
        if a { let c: int = 1; }     f, a       a, b                 a
                                     f, a       a, b                 let c: int = 1
        return c;                    f, a       c, a, b              return c
    }

A name stands for what is its own function's first and for what is global only then, so `a` is the
global in its own initial value and the local variable from there on. A variable is seen behind its
declaration, a function also in its own body.
-/

namespace CZero

namespace Static

/-- What a name stands for. -/
inductive Role where
  /-- A variable, a constant or a parameter. -/
  | var (ty : Ty) (isConst : Bool)
  | fn (ret : Ty)
deriving DecidableEq

/-- Names with what they stand for, the newest first. -/
abbrev Glossary : Type :=
  List (String × Role)

/-- The names that can be seen from a place in a program. -/
structure Sight where
  /-- Parameters and local variables. -/
  own : Glossary
  /-- Globals and functions. -/
  globals : Glossary
deriving DecidableEq

/-- What a name stands for: parameters and local variables come first. -/
def Sight.find? (σ : Sight) (name : String) : Option Role :=
  (σ.own.lookup name).or (σ.globals.lookup name)

end Static

open Static

/-! ### Expressions -/

mutual

/-- An expression and all expressions in it. -/
def Expr.parts : Expr → List Expr
  | e@(.hole _) | e@(.uint _) | e@(.double _) | e@(.string _) | e@(.char _) | e@(.load _) => [e]
  | e@(.assign _ inner) | e@(.paren inner) | e@(.neg _ inner) | e@(.cast inner _) | e@(.cutOff inner _) =>
    e :: inner.parts
  | e@(.call _ as) => e :: as.parts
  | e@(.arith _ lhs rhs) | e@(.compare _ lhs rhs) => e :: (lhs.parts ++ rhs.parts)

/-- All expressions in the arguments of a call. -/
def Args.parts : Args → List Expr
  | .close | .cutOff _ => []
  | .arg e rest => e.parts ++ rest.parts

end

/-- The type of an expression whose names stand for what they should. An operation has the type of its
first operand, and a cast that of its operand. -/
def Expr.typeIn (σ : Sight) : Expr → Ty
  | .hole _ | .cutOff _ _ | .uint _ | .string _ | .char _ => .int
  | .double _ => .double
  | .load name =>
    match σ.find? name.name with
    | some (.var ty _) => ty
    | _ => .int
  | .assign _ _ => .void
  | .call name _ =>
    match σ.find? name.name with
    | some (.fn ret) => ret
    | _ => .int
  | .paren e | .neg _ e | .cast e _ => e.typeIn σ
  | .arith _ lhs _ | .compare _ lhs _ => lhs.typeIn σ

/-! ### Clauses -/

/-- A part of a program whose names are looked up in one sight. -/
inductive Static.Clause where
  | expr (e : Expr)
  | decl (d : Decl)
  | ret (value : Option Expr)

/-- The expression of a clause, if it has one. -/
def Static.Clause.expr? : Clause → Option Expr
  | .expr e => some e
  | .decl d => d.init
  | .ret value => value

/-- The name of a declaration, with what it stands for. -/
def Decl.entry (d : Decl) : String × Role :=
  (d.name.name, .var d.type.ty d.isConst)

/-- The name that a clause adds to what is seen behind it. -/
def Static.Clause.brings : Clause → Option (String × Role)
  | .decl d => some d.entry
  | .expr _ | .ret _ => none

mutual

/-- The clauses of a statement. -/
def Stmt.clauses : Stmt → List Clause
  | .decl d => [.decl d]
  | .cond c => c.clauses
  | .loop e body => .expr e :: body.clauses
  | .ret _ value => [.ret value]
  | .block b => b.clauses
  | .empty => []
  | .expr e => [.expr e]

/-- The clauses of a block. -/
def Block.clauses : Block → List Clause
  | .close | .cutOff _ => []
  | .stmt s rest => s.clauses ++ rest.clauses

/-- The clauses of a conditional statement. -/
def IfChain.clauses : IfChain → List Clause
  | .mk e body otherwise => .expr e :: (body.clauses ++ otherwise.clauses)

/-- The clauses of what follows a conditional block. -/
def Else.clauses : Else → List Clause
  | .absent => []
  | .block b => b.clauses
  | .chain c => c.clauses

end

/-! ### What is seen where -/

/-- The name of a parameter, with what it stands for. -/
def Param.entry (q : Param) : String × Role :=
  (q.name.name, .var q.type.ty q.isConst)

/-- The name of a part of a program, with what it stands for. -/
def Item.entry : Item → String × Role
  | .fn f => (f.name.name, .fn f.ret)
  | .decl d => d.entry

namespace Static

/-- The names that every program starts with. -/
def reserved : Glossary :=
  (entryName, .fn .void) :: (LibraryFn.all.map fun f => (f.name, .fn f.ret)).reverse

/-- The globals and functions behind some parts of a program. -/
def globalsBehind (items : List Item) : Glossary :=
  (items.map Item.entry).reverse ++ reserved

/-- The parameters and local variables of a function behind some of its clauses. -/
def ownBehind (params : List Param) (clauses : List Clause) : Glossary :=
  (clauses.filterMap Clause.brings).reverse ++ (params.map Param.entry).reverse

end Static

/-- A clause stands in a program, sees the names of `σ`, and belongs to a function with result type
`ret`, or to none. -/
inductive Program.Occurs (p : Program) : Sight → Option Ty → Clause → Prop
  | global {before d after} : p.items = before ++ .decl d :: after →
    p.Occurs ⟨[], globalsBehind before⟩ none (.decl d)
  | inside {before f after earlier c later} : p.items = before ++ .fn f :: after →
    f.body.clauses = earlier ++ c :: later →
    p.Occurs ⟨ownBehind f.params earlier, globalsBehind (before ++ [.fn f])⟩ (some f.ret) c

/-- An expression stands in a program, in another one or alone, and sees the names of `σ`. -/
def Program.Evaluates (p : Program) (σ : Sight) (e : Expr) : Prop :=
  ∃ ret c, p.Occurs σ ret c ∧ ∃ whole ∈ c.expr?, e ∈ whole.parts

/-! ### The rules -/

/-- A type that a variable can have. -/
def Ident.IsValueType (type : Ident) : Prop :=
  type.name = "int" ∨ type.name = "double"

/-- A type that a result can have. -/
def Ident.IsResultType (type : Ident) : Prop :=
  type.IsValueType ∨ type.name = "void"

/-- A program keeps the static rules. -/
structure Program.KeepsRules (p : Program) : Prop where
  /-- Functions and globals have different names, and none that is reserved. -/
  globals : ((globalsBehind p.items).map Prod.fst).Nodup
  /-- The parameters and local variables of a function have different names, in whatever blocks. -/
  locals : ∀ f, .fn f ∈ p.items → ((ownBehind f.params f.body.clauses).map Prod.fst).Nodup
  variableTypes : ∀ σ ret d, p.Occurs σ ret (.decl d) → d.type.IsValueType
  paramTypes : ∀ f, .fn f ∈ p.items → ∀ q ∈ f.params, q.type.IsValueType
  resultTypes : ∀ f, .fn f ∈ p.items → ∃ type, f.type = .ok type ∧ type.IsResultType
  castTypes : ∀ σ e type, p.Evaluates σ (.cast e type) → type.IsResultType
  calls : ∀ σ name as, p.Evaluates σ (.call name as) → ∃ ret, σ.find? name.name = some (.fn ret)
  reads : ∀ σ name, p.Evaluates σ (.load name) → ∃ ty isConst, σ.find? name.name = some (.var ty isConst)
  targets : ∀ σ name e, p.Evaluates σ (.assign name e) → σ.find? name.name = some (.var .int false)
  assigned : ∀ σ name e, p.Evaluates σ (.assign name e) → e.typeIn σ ≠ .void
  initial : ∀ σ ret d, p.Occurs σ ret (.decl d) → ∀ e ∈ d.init, e.typeIn σ ≠ .void
  emptyReturns : ∀ σ ret, p.Occurs σ (some ret) (.ret none) → ret = .void
  returns : ∀ σ ret e, p.Occurs σ (some ret) (.ret (some e)) → ret ≠ .void ∧ e.typeIn σ = ret

end CZero
