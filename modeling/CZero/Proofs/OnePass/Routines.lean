import CZero.Compiler
import CZero.Proofs.Token.Requests

/-!
# Analysis in one pass

A source need not be read to its end before it is lowered. The routines below ask a lexer for one token
after the other, and lower each construct as soon as it is recognised, without a tree. There is a routine
for each kind of phrase, and the loops are those over parts, parameters, statements, operators, minus signs
and arguments.

Nothing in the routines says that they end, so each call and each turn of a loop spends one unit of fuel, and
a run that has none left is unfinished. What a run does is written down as it happens:

    enter m     a routine, or a turn of a loop, begins
    leave m     it is complete
    asked q a   request `q` to the lexer has the answer `a`
-/

namespace CZero.OnePass

/-! ### Runs -/

/-- A routine, or one turn of a loop. -/
inductive Mark where
  /-- A turn of the loop over the parts of a program. -/
  | nextPart
  | function
  /-- A turn of the loop over the parameters of a function. -/
  | nextParam
  | param
  | block
  /-- A turn of the loop over the statements of a block. -/
  | nextStmt
  | stmt
  | declaration
  | cond
  | loop
  | condition
  | ret
  | expr
  | sum
  /-- A turn of the loop over the operators of a sum. -/
  | nextTerm
  | term
  /-- A turn of the loop over the operators of a term. -/
  | nextCast
  | cast
  | unary
  /-- A turn of the loop over minus signs. -/
  | nextMinus
  | primary
  | call
  /-- A turn of the loop over the arguments of a call. -/
  | nextArg
  | assignment
deriving DecidableEq

/-- What is written down about a run. -/
inductive Event where
  | enter (m : Mark)
  | leave (m : Mark)
  | asked (q : Lexer.Request) (answer : Except Diagnostic Token)

/-- Where a run stands. -/
structure State where
  lexer : Lexer
  context : Context
  /-- What has happened so far, the latest first. -/
  log : List Event

/-- Why a run stops. -/
inductive Stop where
  | fault (d : Diagnostic)
  /-- There is no fuel left. -/
  | unfinished

/-- A part of a run. A run that stops keeps its state. -/
abbrev Pass (α : Type) : Type :=
  EStateM Stop State α

/-! ### Steps -/

/-- Reports a fault. -/
def fault {α : Type} (d : Diagnostic) : Pass α :=
  throw (.fault d)

/-- Gives up for lack of fuel. -/
def giveUp {α : Type} : Pass α :=
  throw .unfinished

/-- Writes an event down. -/
def note (e : Event) : Pass Unit :=
  modify fun s => { s with log := e :: s.log }

/-- Runs a routine or a turn of a loop, and writes down where it begins and where it is complete. -/
def within {α : Type} (m : Mark) (x : Pass α) : Pass α := do
  note (.enter m)
  let a ← x
  note (.leave m)
  return a

/-- Makes a request to the lexer. -/
def ask (q : Lexer.Request) : Pass Token := fun s =>
  let (answer, lexer) := s.lexer.ask q
  let after := { s with lexer, log := .asked q answer :: s.log }
  match answer with
  | .ok t => .ok t after
  | .error d => .error (.fault d) after

/-- The next token, which is consumed. -/
def next : Pass Token :=
  ask .next

/-- The next token, which is only looked at. -/
def peek : Pass Token :=
  ask .peek

/-- A step of lowering. -/
def lower {α : Type} (x : Lower α) : Pass α := fun s =>
  match x s.context with
  | .ok (a, context) => .ok a { s with context }
  | .error d => .error (.fault d) s

/-! ### Single tokens -/

/-- The diagnostic for a token that is none of the `expected` ones. -/
def unexpected (expected : List String) (t : Token) : Diagnostic :=
  ⟨.expectedToken expected t.lexeme.describe, t.start⟩

/-- Whether the lexeme `l` comes next. -/
def check (l : Lexeme) : Pass Bool := do
  let t ← peek
  return t.lexeme = l

/-- Consumes the lexeme `l`, which has to come next. -/
def expect (l : Lexeme) : Pass Token := do
  let t ← next
  if t.lexeme = l then return t else fault (unexpected [l.describe] t)

/-- Consumes an identifier, which has to come next. -/
def ident : Pass Ident := do
  let t ← next
  match t.lexeme with
  | .ident name => return ⟨name, t.start⟩
  | _ => fault (unexpected ["identifier"] t)

/-- The operator that comes next, if it is one of those that `pick` knows. -/
def operator? {α : Type} (pick : Punct → Option α) : Pass (Option α) := do
  let t ← peek
  match t.lexeme with
  | .punct p => return pick p
  | _ => return none

/-- One element of a list and the comma behind it, if there is one, and whether there is one. -/
def element {α : Type} (m : Mark) (x : Pass α) : Pass (α × Bool) := within m do
  let a ← x
  if ← check (.punct .comma) then
    let _ ← next
    return (a, true)
  else return (a, false)

/-! ### Expressions -/

/-- Compares the values of two sums. -/
def compare (op : CompareOp) : Lower Unit := do
  Lower.emit .cmpi
  if let some test := op.test.1 then Lower.emit test
  Lower.emitWith op.test.2 1

/-- The value of the variable `name`. -/
def load (name : Ident) : Pass Ty := do
  let (_, s) ← lower (Lower.resolve name)
  lower (Lower.address name s.slot)
  lower (Lower.emit .load64)
  return s.ty

/-- An operator and the operand behind it, and then `more`, if one of the operators that `pick` knows comes
next. -/
def operation (m : Mark) (pick : Punct → Option ArithOp) (operand : Pass Ty) (more : Pass Unit) : Pass Unit := do
  match ← operator? pick with
  | none => return ()
  | some op => do
    within m do
      let _ ← next
      let _ ← operand
      lower (Lower.emit op.opcode)
    more

mutual

/-- An expression: a sum, or a comparison of two sums. -/
def expr : Nat → Pass Ty
  | 0 => giveUp
  | n + 1 => within .expr do
    let ty ← sum n
    match ← operator? CompareOp.ofPunct? with
    | none => return ty
    | some op => do
      let _ ← next
      let _ ← sum n
      lower (compare op)
      return ty

/-- A sum of terms. -/
def sum : Nat → Pass Ty
  | 0 => giveUp
  | n + 1 => within .sum do
    let ty ← term n
    moreTerms n
    return ty

/-- The operators of a sum and the terms behind them. -/
def moreTerms : Nat → Pass Unit
  | 0 => giveUp
  | n + 1 => operation .nextTerm ArithOp.ofSum? (term n) (moreTerms n)

/-- A product of casts. -/
def term : Nat → Pass Ty
  | 0 => giveUp
  | n + 1 => within .term do
    let ty ← cast n
    moreCasts n
    return ty

/-- The operators of a product and the casts behind them. -/
def moreCasts : Nat → Pass Unit
  | 0 => giveUp
  | n + 1 => operation .nextCast ArithOp.ofTerm? (cast n) (moreCasts n)

/-- An operand with an optional type to regard it as. -/
def cast : Nat → Pass Ty
  | 0 => giveUp
  | n + 1 => within .cast do
    let ty ← unary n
    if ← check (.keyword .asKw) then
      let _ ← next
      let type ← ident
      let _ ← lower (Lower.resultType type)
      return ty
    else return ty

/-- A primary expression under any number of minus signs. -/
def unary : Nat → Pass Ty
  | 0 => giveUp
  | n + 1 => within .unary (minuses n 0)

/-- Minus signs behind those that are counted, and the primary expression behind them. It is negated as often as
the count says. -/
def minuses : Nat → Int32 → Pass Ty
  | 0, _ => giveUp
  | n + 1, count => do
    if ← check (.punct .minus) then
      let _ ← within .nextMinus next
      minuses n (count + 1)
    else
      let ty ← primary n
      lower (Lower.negate count.toNatClampNeg)
      return ty

/-- A literal, a name, an assignment, a call, or an expression in parentheses. -/
def primary : Nat → Pass Ty
  | 0 => giveUp
  | n + 1 => within .primary do
    let t ← next
    match t.lexeme with
    | .uint value => do
      lower (Lower.emitWith .push value.toInt64)
      return .int
    | .double _ => return .double
    | .string text => do
      let slot ← lower (Lower.update .nowhere fun table => .ok (table.declareLiteral text))
      lower (Lower.emitWith .push (Int64.ofNat slot))
      return .int
    | .char c => do
      lower (Lower.emitWith .push (Int64.ofNat c.toNat))
      return .int
    | .ident name => do
      if ← check (.punct .lparen) then call n ⟨name, t.start⟩
      else if ← check (.punct .assign) then assignment n ⟨name, t.start⟩
      else load ⟨name, t.start⟩
    | .punct p =>
      if p = .lparen then do
        let ty ← expr n
        let _ ← expect (.punct .rparen)
        return ty
      else fault (unexpected Parse.primaryStarts t)
    | .keyword _ | .endOfFile => fault (unexpected Parse.primaryStarts t)

/-- A call of the function `name`. -/
def call : Nat → Ident → Pass Ty
  | 0, _ => giveUp
  | n + 1, name => within .call do
    let info ← lower (Lower.callee name)
    lower (Lower.emitWith .stackalloc (Int64.ofNat info.returnSlots))
    let _ ← expect (.punct .lparen)
    if ← check (.punct .rparen) then pure () else moreArgs n
    let _ ← expect (.punct .rparen)
    lower (Lower.callInstr info.index)
    return info.ret

/-- One or more arguments. -/
def moreArgs : Nat → Pass Unit
  | 0 => giveUp
  | n + 1 => do
    let (_, more) ← element .nextArg (expr n)
    if more then moreArgs n else return ()

/-- An assignment to the variable `name`. -/
def assignment : Nat → Ident → Pass Ty
  | 0, _ => giveUp
  | n + 1, name => within .assignment do
    let (id, slot) ← lower (Lower.target name)
    let _ ← expect (.punct .assign)
    lower (Lower.address name slot)
    let ty ← expr n
    lower (Lower.storable name ty)
    lower (Lower.emit .store64)
    lower (Lower.update .nowhere fun table => .ok ((), table.markInit id))
    return .void

end

/-! ### Declarations -/

/-- The slot of a local variable. A global variable has none yet. -/
def reserve (layer : Nat) (name : Ident) : Lower (Option Nat) :=
  if layer = 0 then pure none else some <$> Lower.edit (·.addLocal · name.name)

/-- What lies between the type of a variable and its value: the variable's address. The result is the
place of the address if it is not known yet. -/
def valueAddress : Option Nat → Lower (Option Site)
  | some index => do
    Lower.emitWith .loca (Int64.ofNat index)
    return none
  | none => some <$> Lower.placeholder .globa

/-- Declares a variable whose declaration is complete. -/
def declareVariable (isConst isInit : Bool) (name : Ident) (ty : Ty) (layer : Nat) (reserved : Option Nat)
    (site : Option Site) : Lower Unit := do
  let global := (← get).table.globalCount
  let slot := match reserved with
    | some index => Slot.loc index
    | none => Slot.glob global
  let s := Symbol.ofVariable name.name ty layer isConst slot
  Lower.declare name { s with isInit }
  if let some site := site then Lower.patch site (Int64.ofNat global)

/-- The value that a variable starts with, and whether there is one. A constant needs one. -/
def initialValue (n : Nat) (isConst : Bool) (name : Ident) (reserved : Option Nat) : Pass (Bool × Option Site) := do
  let isInit ← if isConst then pure true else check (.punct .assign)
  if isInit then do
    let _ ← expect (.punct .assign)
    let site ← lower (valueAddress reserved)
    let found ← expr n
    lower (Lower.storable name found)
    lower (Lower.emit .store64)
    return (true, site)
  else return (false, none)

/-- A declaration. -/
def declaration (isConst : Bool) : Nat → Pass Unit
  | 0 => giveUp
  | n + 1 => within .declaration do
    let _ ← next
    let name ← ident
    let _ ← expect (.punct .colon)
    let type ← ident
    let ty ← lower (Lower.valueType name type)
    let context ← lower get
    let layer := context.table.layer
    let reserved ← lower (reserve layer name)
    let (isInit, site) ← initialValue n isConst name reserved
    let _ ← expect (.punct .semicolon)
    lower (declareVariable isConst isInit name ty layer reserved site)

/-! ### Statements -/

/-- Completes a condition, whose expression is lowered. -/
def closeCondition : Lower Unit := do
  let last ← Lower.ask (·.lastOpcode? ·)
  if !last.any Opcode.isConditional then Lower.emitWith .brtrue 1

/-- Completes a conditional statement: `skip` is the jump over the guarded block, and `jump` the one over
what follows `else`. -/
def closeCond (skip : Site) (jump : Option Site) : Lower Unit := do
  let last ← Lower.here
  match jump with
  | some jump => do
    Lower.patchJump skip (jump.position + 1)
    Lower.patchJump jump (last + 1)
  | none => Lower.patchJump skip (last + 1)
  Lower.emitWith .br 0

/-- A condition. -/
def condition : Nat → Pass Unit
  | 0 => giveUp
  | n + 1 => within .condition do
    let _ ← expr n
    lower closeCondition

/-- A `return` statement. -/
def ret : Nat → Pass Unit
  | 0 => giveUp
  | n + 1 => within .ret do
    let t ← expect (.keyword .returnKw)
    let info ← lower (Lower.ask (·.function ·))
    if ← check (.punct .semicolon) then
      lower (if info.ret ≠ .void then Lower.fail .returnTypeMismatch t.start else pure ())
    else do
      lower (Lower.emitWith .arga 0)
      let found ← expr n
      lower (if info.ret = .void ∨ found ≠ info.ret then Lower.fail .returnTypeMismatch t.start else pure ())
      lower (Lower.emit .store64)
    lower (Lower.emit .ret)
    let _ ← expect (.punct .semicolon)

/-- What follows a conditional block: another conditional statement, or a block. The result is the jump
around it. -/
def elsePart (cond block : Pass Unit) : Pass (Option Site) := do
  if ← check (.keyword .elseKw) then
    let _ ← next
    let jump ← lower (Lower.placeholder .br)
    if ← check (.keyword .ifKw) then cond else block
    return some jump
  else return none

/-- An expression as a statement. -/
def exprStmt (n : Nat) : Pass Unit := do
  let _ ← expr n
  let _ ← expect (.punct .semicolon)

mutual

/-- A statement. -/
def stmt : Nat → Pass Unit
  | 0 => giveUp
  | n + 1 => within .stmt do
    let t ← peek
    match t.lexeme with
    | .keyword k =>
      match k with
      | .letKw => declaration false n
      | .constKw => declaration true n
      | .ifKw => cond n
      | .whileKw => loop n
      | .returnKw => ret n
      | .fnKw | .asKw | .elseKw | .breakKw | .continueKw => exprStmt n
    | .punct p =>
      if p = .lbrace then block n
      else if p = .semicolon then do
        let _ ← next
      else exprStmt n
    | .ident _ | .uint _ | .double _ | .string _ | .char _ | .endOfFile => exprStmt n

/-- A block: statements between braces. -/
def block : Nat → Pass Unit
  | 0 => giveUp
  | n + 1 => within .block do
    let _ ← expect (.punct .lbrace)
    moreStmts n
    let _ ← expect (.punct .rbrace)

/-- The statements of a block. -/
def moreStmts : Nat → Pass Unit
  | 0 => giveUp
  | n + 1 => do
    if ← check (.punct .rbrace) then return ()
    else
      within .nextStmt (stmt n)
      moreStmts n

/-- A conditional statement. -/
def cond : Nat → Pass Unit
  | 0 => giveUp
  | n + 1 => within .cond do
    let _ ← expect (.keyword .ifKw)
    condition n
    let skip ← lower (Lower.placeholder .br)
    block n
    let jump ← elsePart (cond n) (block n)
    lower (closeCond skip jump)

/-- A `while` statement. -/
def loop : Nat → Pass Unit
  | 0 => giveUp
  | n + 1 => within .loop do
    let _ ← expect (.keyword .whileKw)
    lower (Lower.emitWith .br 0)
    let again ← lower Lower.here
    condition n
    let leave ← lower (Lower.placeholder .br)
    block n
    let back ← lower Lower.here
    lower (Lower.emitWith .br (Lower.distance back again))
    lower (Lower.patchJump leave (back + 1))

end

/-! ### Programs -/

/-- Whether a parameter is a constant. -/
def constness : Pass Bool := do
  if ← check (.keyword .constKw) then
    let _ ← next
    return true
  else return false

/-- A parameter and its type. -/
def param : Pass (Param × Ty) := within .param do
  let isConst ← constness
  let name ← ident
  let _ ← expect (.punct .colon)
  let type ← ident
  let ty ← lower (Lower.valueType name type)
  return (⟨isConst, name, type⟩, ty)

/-- One or more parameters. -/
def moreParams : Nat → Pass (List (Param × Ty))
  | 0 => giveUp
  | n + 1 => do
    let (p, more) ← element .nextParam param
    if more then return p :: (← moreParams n) else return [p]

/-- The parameters of a function and the closing parenthesis. -/
def paramList (n : Nat) : Pass (List (Param × Ty)) := do
  let params ← if ← check (.punct .rparen) then pure [] else moreParams n
  let _ ← expect (.punct .rparen)
  return params

/-- Declares a function and its parameters, and goes on in it. The result is the layer of its names. -/
def openFunction (name : Ident) (params : List (Param × Ty)) (ret : Ty) : Lower Nat := do
  let index := (← get).table.functionCount
  let types := params.map fun (p, ty) => (p.name.name, ty)
  Lower.declare name (.ofFunction name.name (.declared index ret types))
  modify fun c => { c with
    table := c.table.openScope
    main := if name.name = mainName then some index else c.main }
  let layer := (← get).table.layer
  Lower.declareParams layer 0 params
  modify fun c => { c with current := index }
  return layer

/-- Completes the function whose names are in the given layer. -/
def closeFunction (layer : Nat) (ret : Ty) : Lower Unit := do
  if ret = .void then Lower.emit .ret
  modify fun c => { c with
    table := (c.table.closeScope layer).2
    current := entryIndex }

/-- A function. -/
def function : Nat → Pass Unit
  | 0 => giveUp
  | n + 1 => within .function do
    let _ ← expect (.keyword .fnKw)
    let name ← ident
    let _ ← expect (.punct .lparen)
    let params ← paramList n
    let _ ← expect (.punct .arrow)
    let type ← ident
    let ret ← lower (Lower.resultType type)
    let layer ← lower (openFunction name params ret)
    block n
    lower (closeFunction layer ret)

/-- The parts of a program. The result is the end of its source. -/
def moreParts : Nat → Pass Position
  | 0 => giveUp
  | n + 1 => do
    let t ← peek
    match t.lexeme with
    | .endOfFile => return t.start
    | .keyword .fnKw => do
      within .nextPart (function n)
      moreParts n
    | .keyword .letKw => do
      within .nextPart (declaration false n)
      moreParts n
    | .keyword .constKw => do
      within .nextPart (declaration true n)
      moreParts n
    | _ => fault (unexpected Parse.itemStarts t)

/-- A program. The result is the end of its source. -/
def program (fuel : Nat) : Pass Position := do
  let finish ← moreParts fuel
  lower Lower.callMain
  return finish

/-- The run on a source. -/
def run (fuel : Nat) (source : String) : EStateM.Result Stop State Position :=
  program fuel ⟨.ofSource source, .initial, []⟩

/-- What a run has found out, unless it is unfinished. -/
def result? : EStateM.Result Stop State Position → Option (Except Diagnostic Analysis)
  | .ok finish s => some (.ok ⟨s.context.table, s.context.main, finish⟩)
  | .error (.fault d) _ => some (.error d)
  | .error .unfinished _ => none

/-- What has happened in a run, from the beginning to the end. -/
def events {α : Type} : EStateM.Result Stop State α → List Event
  | .ok _ s => s.log.reverse
  | .error _ s => s.log.reverse

end CZero.OnePass
