import CZero.Diagnostic
import CZero.Library
import CZero.Symbol.Basic

/-!
# The symbol table

Symbols are kept in the order of their declaration, each under a number of its own that is never
given twice. Names are found through scopes, one for each layer: a scope maps the names declared in
its layer to numbers of symbols. The global layer 0 is always open.

A variable may have the name of a symbol further out, and hides it. A function may not. String
literals have no name that could be found.
-/

namespace CZero

/-- The names that one layer declares, each with the number of its symbol. -/
abbrev Scope : Type :=
  List (String × Nat)

/-- An instruction whose operand is still missing: a function and a place in its code. -/
structure Site where
  function : Nat
  position : Nat
deriving DecidableEq

/-- The symbols of a program. -/
structure Table where
  /-- The symbols with their numbers, oldest first. -/
  entries : List (Nat × Symbol)
  /-- The open scopes, the global one first. -/
  scopes : List Scope
  /-- For each function its symbol. -/
  functions : List Nat
  /-- The number of the next symbol. -/
  nextId : Nat
deriving DecidableEq

/-- The name of the function that a program starts in. -/
def entryName : String := "_start"

/-- The number of the function that a program starts in: the first after the library. -/
def entryIndex : Nat := libraryCount

namespace Table

/-! ### Declaring -/

/-- A table without symbols. -/
def empty : Table :=
  ⟨[], [[]], [], 0⟩

/-- The innermost open layer. -/
def layer (t : Table) : Nat :=
  t.scopes.length - 1

/-- Adds a symbol that has no name. -/
def insert (t : Table) (s : Symbol) : Table :=
  { t with entries := t.entries ++ [(t.nextId, s)], nextId := t.nextId + 1 }

/-- Makes a name of a layer stand for a symbol. -/
def bindName (t : Table) (layer : Nat) (name : String) (id : Nat) : Table :=
  { t with scopes := t.scopes.modify layer ((name, id) :: ·) }

/-- Makes a function number stand for a symbol, and with it all smaller numbers that are free. -/
def bindFunction (t : Table) (index id : Nat) : Table :=
  let padded := t.functions ++ List.replicate (index + 1 - t.functions.length) id
  { t with functions := padded.set index id }

/-- Whether a layer declares a name. -/
def declares (t : Table) (layer : Nat) (name : String) : Bool :=
  (t.scopes[layer]?.bind (·.lookup name)).isSome

/-- Whether the name of a symbol that is to be declared in a layer is taken. -/
def collides (t : Table) (s : Symbol) (layer : Nat) : Bool :=
  match s.meaning with
  | .function _ => t.scopes.any fun scope => (scope.lookup s.name).isSome
  | _ => t.declares layer s.name

/-- Declares a symbol in its layer, or in the innermost one if its layer is not open. The result is
its number. -/
def declare (t : Table) (s : Symbol) : Except Cause (Nat × Table) :=
  let layer := min s.layer t.layer
  if t.collides s layer then .error (.duplicateDeclaration s.name)
  else
    let id := t.nextId
    let named := (t.insert { s with layer }).bindName layer s.name id
    .ok (id, match s.meaning with
      | .function info => named.bindFunction info.index id
      | _ => named)

/-- The globals that the code refers to: variables and string literals, in the order of their
slots. -/
def globals (t : Table) : List Symbol :=
  (t.entries.map (·.2)).filter (·.isGlobal)

/-- How many globals the code refers to. -/
def globalCount (t : Table) : Nat :=
  t.globals.length

/-- Adds a string literal. The result is its global. -/
def declareLiteral (t : Table) (text : String) : Nat × Table :=
  (t.globalCount, t.insert (.ofLiteral text t.globalCount))

/-- The library function with the given number; its parameters are called `arg0`, `arg1` and so
on. -/
def libraryInfo (index : Nat) (f : LibraryFn) : FnInfo :=
  ⟨index, f.ret, f.params.mapIdx fun i ty => ("arg" ++ toString i, ty), [], [], true⟩

/-- Adds a function of the initial table. -/
def addInitial (t : Table) (name : String) (info : FnInfo) : Table :=
  ((t.insert (.ofFunction name info)).bindName 0 name t.nextId).bindFunction info.index t.nextId

/-- The table before a program: the library, and the function that the program starts in. -/
def initial : Table :=
  let library := (LibraryFn.all.mapIdx fun i f => (i, f)).foldl
    (fun t (i, f) => t.addInitial f.name (libraryInfo i f)) empty
  library.addInitial entryName (.declared entryIndex .void [])

/-! ### Scopes -/

/-- Opens a scope inside the innermost one. -/
def openScope (t : Table) : Table :=
  { t with scopes := t.scopes ++ [[]] }

/-- Closes a layer and all layers inside it, and forgets the symbols of the layer itself. The result
is the number of forgotten symbols. The global layer stays open. -/
def closeScope (t : Table) (layer : Nat) : Nat × Table :=
  if layer = 0 ∨ t.layer < layer then (0, t)
  else
    let kept := t.entries.filter fun (_, s) => s.layer != layer
    (t.entries.length - kept.length, { t with entries := kept, scopes := t.scopes.take layer })

/-! ### Finding -/

/-- The number of the symbol that a name stands for. -/
def lookup (t : Table) (name : String) : Except Cause Nat :=
  match t.scopes.reverse.findSome? (·.lookup name) with
  | some id => .ok id
  | none => .error (.notDeclared name)

/-- The symbol with the given number. -/
def get? (t : Table) (id : Nat) : Option Symbol :=
  t.entries.lookup id

/-- Changes the symbol with the given number. -/
def modify (t : Table) (id : Nat) (f : Symbol → Symbol) : Table :=
  { t with entries := t.entries.map fun (i, s) => (i, if i = id then f s else s) }

/-- Notes that a symbol has a value. -/
def markInit (t : Table) (id : Nat) : Table :=
  t.modify id fun s => { s with isInit := true }

/-! ### Functions -/

/-- What is wrong if there is no function with this number. -/
def noFunction (index : Nat) : Cause :=
  .notDeclared ("function #" ++ toString index)

/-- The function with the given number. -/
def function (t : Table) (index : Nat) : Except Cause FnInfo :=
  match t.functions[index]?.bind fun id => (t.get? id).bind Symbol.function? with
  | some info => .ok info
  | none => .error (noFunction index)

/-- All functions in the order of their numbers. -/
def allFunctions (t : Table) : List FnInfo :=
  t.functions.filterMap fun id => (t.get? id).bind Symbol.function?

/-- The name of the function with the given number. -/
def functionName? (t : Table) (index : Nat) : Option String :=
  t.functions[index]?.bind fun id => (t.get? id).map (·.name)

/-- How many function numbers are in use. -/
def functionCount (t : Table) : Nat :=
  t.functions.length

/-- Changes the function with the given number. -/
def modifyFunction (t : Table) (index : Nat) (f : FnInfo → FnInfo) : Except Cause Table := do
  let _ ← t.function index
  match t.functions[index]? with
  | some id => return t.modify id (·.mapFunction f)
  | none => throw (noFunction index)

/-- Reserves a local variable in a function. The result is its slot. -/
def addLocal (t : Table) (index : Nat) (name : String) : Except Cause (Nat × Table) := do
  let info ← t.function index
  return (info.locals.length, ← t.modifyFunction index (·.addLocal name))

/-- Appends an instruction to a function. The result is its place. -/
def append (t : Table) (index : Nat) (i : Instr) : Except Cause (Nat × Table) := do
  let info ← t.function index
  return (info.body.length, ← t.modifyFunction index (·.append i))

/-- Inserts an instruction into a function. -/
def insertInstr (t : Table) (index : Nat) (i : Instr) (position : Nat) : Except Cause Table :=
  t.modifyFunction index (·.insert i position)

/-- Appends an instruction whose operand is not known yet. -/
def placeholder (t : Table) (index : Nat) (op : Opcode) : Except Cause (Site × Table) := do
  let (position, t) ← t.append index (.plain op)
  return (⟨index, position⟩, t)

/-- Fills in an operand. -/
def patch (t : Table) (site : Site) (operand : Int64) : Except Cause Table := do
  let info ← t.function site.function
  if site.position < info.body.length then
    t.modifyFunction site.function (·.setOperand site.position operand)
  else throw (.unresolvedOperand ("patch site " ++ toString site.position))

/-- The number of instructions that a function has. -/
def instrCount (t : Table) (index : Nat) : Except Cause Nat := do
  return (← t.function index).body.length

/-- The operation of a function's last instruction. -/
def lastOpcode? (t : Table) (index : Nat) : Except Cause (Option Opcode) := do
  return (← t.function index).body.getLast?.map (·.opcode)

end Table

end CZero
