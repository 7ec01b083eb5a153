import CZero.Tree.Parse.Program

/-!
# The grammar

The grammar as relations, one for each of its symbols. `IsExpr f e r` says that the tokens of feed `f`
begin with expression `e` and go on with `r`. Where the grammar lets two constructs meet, the inner one
takes the longest match: a construct ends only before a token that cannot continue it.

    a = 1 + 2         assigns 3: the value is a whole expression
    - a * b           the minus sign belongs to `a`
    a - b - c         (a - b) - c
    a = 1 < 2 < 3     the value is `1 < 2`, and then the assignment is compared with `3`

There is nothing here to stop at a fault, so a feed that a relation holds of has no fault in the part
that was read, and none in the token that was looked at last.
-/

namespace CZero

/-- How a comparison is written. -/
def CompareOp.punct : CompareOp → Punct
  | .eq => .eq
  | .ne => .ne
  | .lt => .lt
  | .gt => .gt
  | .le => .le
  | .ge => .ge

/-- How an operator on integers is written. -/
def ArithOp.punct : ArithOp → Punct
  | .add => .plus
  | .sub => .minus
  | .mul => .star
  | .div => .slash

/-- Whether an operator joins terms and not factors. -/
def ArithOp.isSum : ArithOp → Bool
  | .add | .sub => true
  | .mul | .div => false

namespace Feed

/-- A lexeme, and what follows it. -/
def Eats (f : Feed) (l : Lexeme) (r : Feed) : Prop :=
  ∃ t, f = .token t r ∧ t.lexeme = l

/-- A name, and what follows it. -/
def EatsName (f : Feed) (x : Ident) (r : Feed) : Prop :=
  ∃ t, f = .token t r ∧ t.lexeme = .ident x.name ∧ t.start = x.start

/-- The next token, or the end of the source, can be looked at. -/
def IsLive : Feed → Prop
  | .token _ _ => True
  | .done _ => True
  | .stuck _ => False

/-- There is a next token or the end of the source, and it is another lexeme. -/
def Lacks (l : Lexeme) : Feed → Prop
  | .token t _ => t.lexeme ≠ l
  | .done _ => l ≠ .endOfFile
  | .stuck _ => False

end Feed

namespace Grammar

/-! ### Expressions -/

mutual

/-- A sum, or a comparison of two sums. -/
inductive IsExpr : Feed → Expr → Feed → Prop
  | sum {f e r} : IsSum f e r → (∀ op : CompareOp, r.Lacks (.punct op.punct)) → IsExpr f e r
  | compare {f lhs g h rhs r} {op : CompareOp} : IsSum f lhs g → g.Eats (.punct op.punct) h →
    IsSum h rhs r → IsExpr f (.compare op lhs rhs) r

/-- A term, and more terms. -/
inductive IsSum : Feed → Expr → Feed → Prop
  | mk {f lhs g e r} : IsTerm f lhs g → IsSums lhs g e r → IsSum f e r

/-- Terms that are added to what is there. -/
inductive IsSums : Expr → Feed → Expr → Feed → Prop
  | last {e f} : (∀ op : ArithOp, op.isSum → f.Lacks (.punct op.punct)) → IsSums e f e f
  | more {lhs f g rhs h e r} {op : ArithOp} : op.isSum → f.Eats (.punct op.punct) g → IsTerm g rhs h →
    IsSums (.arith op lhs rhs) h e r → IsSums lhs f e r

/-- A factor, and more factors. -/
inductive IsTerm : Feed → Expr → Feed → Prop
  | mk {f lhs g e r} : IsCast f lhs g → IsTerms lhs g e r → IsTerm f e r

/-- Factors that multiply or divide what is there. -/
inductive IsTerms : Expr → Feed → Expr → Feed → Prop
  | last {e f} : (∀ op : ArithOp, !op.isSum → f.Lacks (.punct op.punct)) → IsTerms e f e f
  | more {lhs f g rhs h e r} {op : ArithOp} : !op.isSum → f.Eats (.punct op.punct) g → IsCast g rhs h →
    IsTerms (.arith op lhs rhs) h e r → IsTerms lhs f e r

/-- An operand, and a type that it is regarded as. -/
inductive IsCast : Feed → Expr → Feed → Prop
  | plain {f e r} : IsUnary f e r → r.Lacks (.keyword .asKw) → IsCast f e r
  | cast {f e g h type r} : IsUnary f e g → g.Eats (.keyword .asKw) h → h.EatsName type r →
    r.IsLive → IsCast f (.cast e type) r

/-- A primary expression under minus signs. -/
inductive IsUnary : Feed → Expr → Feed → Prop
  | neg {f g e r} : f.Eats (.punct .minus) g → IsUnary g e r → IsUnary f e.negate r
  | primary {f e r} : IsPrimary f e r → IsUnary f e r

/-- A literal, a name, an assignment, a call, or an expression in parentheses. -/
inductive IsPrimary : Feed → Expr → Feed → Prop
  | uint {f value r} : f.Eats (.uint value) r → IsPrimary f (.uint value) r
  | double {f value r} : f.Eats (.double value) r → IsPrimary f (.double value) r
  | string {f text r} : f.Eats (.string text) r → IsPrimary f (.string text) r
  | char {f c r} : f.Eats (.char c) r → IsPrimary f (.char c) r
  | load {f x r} : f.EatsName x r → r.Lacks (.punct .lparen) → r.Lacks (.punct .assign) →
    IsPrimary f (.load x) r
  | assign {f x g h e r} : f.EatsName x g → g.Eats (.punct .assign) h → IsExpr h e r →
    IsPrimary f (.assign x e) r
  | callNone {f x g h r} : f.EatsName x g → g.Eats (.punct .lparen) h → h.Eats (.punct .rparen) r →
    IsPrimary f (.call x .close) r
  | call {f x g h as r} : f.EatsName x g → g.Eats (.punct .lparen) h → IsArgs h as r →
    IsPrimary f (.call x as) r
  | paren {f g e h r} : f.Eats (.punct .lparen) g → IsExpr g e h → h.Eats (.punct .rparen) r →
    IsPrimary f (.paren e) r

/-- One or more arguments and the closing parenthesis. -/
inductive IsArgs : Feed → Args → Feed → Prop
  | last {f e g r} : IsExpr f e g → g.Eats (.punct .rparen) r → IsArgs f (.arg e .close) r
  | more {f e g h as r} : IsExpr f e g → g.Eats (.punct .comma) h → IsArgs h as r → IsArgs f (.arg e as) r

end

/-! ### Declarations and statements -/

/-- The value that a declaration starts with. A constant needs one. -/
inductive IsInit : Bool → Feed → Option Expr → Feed → Prop
  | value {isConst f g e r} : f.Eats (.punct .assign) g → IsExpr g e r → IsInit isConst f (some e) r
  | none {f} : f.Lacks (.punct .assign) → IsInit false f none f

/-- A declaration after its keyword. -/
inductive IsDecl : Bool → Feed → Decl → Feed → Prop
  | mk {isConst f x g h type i init j r} : f.EatsName x g → g.Eats (.punct .colon) h → h.EatsName type i →
    IsInit isConst i init j → j.Eats (.punct .semicolon) r →
    IsDecl isConst f ⟨isConst, x, type, init, .none⟩ r

mutual

/-- A statement. -/
inductive IsStmt : Feed → Stmt → Feed → Prop
  | letDecl {f g d r} : f.Eats (.keyword .letKw) g → IsDecl false g d r → IsStmt f (.decl d) r
  | constDecl {f g d r} : f.Eats (.keyword .constKw) g → IsDecl true g d r → IsStmt f (.decl d) r
  | cond {f g c r} : f.Eats (.keyword .ifKw) g → IsIf g c r → IsStmt f (.cond c) r
  | loop {f g e h b r} : f.Eats (.keyword .whileKw) g → IsExpr g e h → IsBlock h b r →
    IsStmt f (.loop e b) r
  | ret {t g r} : t.lexeme = .keyword .returnKw → g.Eats (.punct .semicolon) r →
    IsStmt (.token t g) (.ret t.start none) r
  | retValue {t g e h r} : t.lexeme = .keyword .returnKw → IsExpr g e h → h.Eats (.punct .semicolon) r →
    IsStmt (.token t g) (.ret t.start (some e)) r
  | block {f b r} : IsBlock f b r → IsStmt f (.block b) r
  | empty {f r} : f.Eats (.punct .semicolon) r → IsStmt f .empty r
  | expr {f e g r} : IsExpr f e g → g.Eats (.punct .semicolon) r → IsStmt f (.expr e) r

/-- Statements between braces. -/
inductive IsBlock : Feed → Block → Feed → Prop
  | mk {f g b r} : f.Eats (.punct .lbrace) g → IsBody g b r → IsBlock f b r

/-- Statements up to a closing brace. -/
inductive IsBody : Feed → Block → Feed → Prop
  | close {f r} : f.Eats (.punct .rbrace) r → IsBody f .close r
  | stmt {f s g b r} : IsStmt f s g → IsBody g b r → IsBody f (.stmt s b) r

/-- A conditional statement after its keyword. -/
inductive IsIf : Feed → IfChain → Feed → Prop
  | mk {f e g b h o r} : IsExpr f e g → IsBlock g b h → IsElse h o r → IsIf f (.mk e b o) r

/-- What follows a conditional block. -/
inductive IsElse : Feed → Else → Feed → Prop
  | absent {f} : f.Lacks (.keyword .elseKw) → IsElse f .absent f
  | block {f g b r} : f.Eats (.keyword .elseKw) g → IsBlock g b r → IsElse f (.block b) r
  | chain {f g h c r} : f.Eats (.keyword .elseKw) g → g.Eats (.keyword .ifKw) h → IsIf h c r →
    IsElse f (.chain c) r

end

/-! ### Programs -/

/-- A parameter. -/
inductive IsParam : Feed → Param → Feed → Prop
  | variable {f x g h type r} : f.EatsName x g → g.Eats (.punct .colon) h → h.EatsName type r →
    IsParam f ⟨false, x, type⟩ r
  | const {f g x h i type r} : f.Eats (.keyword .constKw) g → g.EatsName x h → h.Eats (.punct .colon) i →
    i.EatsName type r → IsParam f ⟨true, x, type⟩ r

/-- One or more parameters and the closing parenthesis. -/
inductive IsParams : Feed → List Param → Feed → Prop
  | last {f p g r} : IsParam f p g → g.Eats (.punct .rparen) r → IsParams f [p] r
  | more {f p g h ps r} : IsParam f p g → g.Eats (.punct .comma) h → IsParams h ps r → IsParams f (p :: ps) r

/-- The parameters of a function after the opening parenthesis. -/
inductive IsParamList : Feed → List Param → Feed → Prop
  | none {f r} : f.Eats (.punct .rparen) r → IsParamList f [] r
  | some {f ps r} : IsParams f ps r → IsParamList f ps r

/-- A part of a program. -/
inductive IsItem : Feed → Item → Feed → Prop
  | fn {f g x h i ps j k type l b r} : f.Eats (.keyword .fnKw) g → g.EatsName x h →
    h.Eats (.punct .lparen) i → IsParamList i ps j → j.Eats (.punct .arrow) k → k.EatsName type l →
    IsBlock l b r → IsItem f (.fn ⟨x, ps, .ok type, b⟩) r
  | letDecl {f g d r} : f.Eats (.keyword .letKw) g → IsDecl false g d r → IsItem f (.decl d) r
  | constDecl {f g d r} : f.Eats (.keyword .constKw) g → IsDecl true g d r → IsItem f (.decl d) r

/-- The parts of a program up to the end of the source. -/
inductive IsProgram : Feed → Program → Prop
  | done {p} : IsProgram (.done p) ⟨[], .ok p⟩
  | item {f i g p} : IsItem f i g → IsProgram g p → IsProgram f ⟨i :: p.items, p.finish⟩

end Grammar

end CZero
