import CZero.Image.Assemble
import CZero.Proofs.Codegen.Stmt

/-!
# The code of a program

Parts are taken in the order of the source. A function is generated on its own, a global declaration
adds to the function that the program starts in. A global takes its slot behind the string literals
of its initial value.

    let x: int = e;      globa (slot of x), e, store64
    end of the source    stackalloc (result slots of main), call main
-/

namespace CZero

/-- What generation has made of the first parts of a program. -/
structure Draft where
  outer : Layer
  data : List Global
  /-- All functions, the library first. -/
  fns : List FnInfo
  main : Option Nat
deriving DecidableEq

namespace FnItem

/-- The result type. -/
def ret (f : FnItem) : Ty :=
  match f.type with
  | .ok type => type.ty
  | .error _ => .void

/-- The parameters with their types. -/
def signature (f : FnItem) : List (String × Ty) :=
  f.params.map fun p => (p.name.name, p.type.ty)

/-- What ends the code: a function without a result returns at its end. -/
def epilogue (f : FnItem) : List Instr :=
  if f.ret = .void then [.plain .ret] else []

/-- The layer of the parameters from the `index`-th on, above what is there. -/
def layer (index : Nat) (inner : Layer) : List Param → Layer
  | [] => inner
  | p :: ps => layer (index + 1) ((p.name.name, .var (.arg index) p.type.ty p.isConst) :: inner) ps

end FnItem

/-- Adds code to a function. -/
def FnInfo.extend (f : FnInfo) (code : List Instr) : FnInfo :=
  { f with body := f.body ++ code }

namespace Draft

/-- Before the first part: the library, and the function that a program starts in. -/
def initial : Draft where
  outer :=
    (entryName, .fn entryIndex .void) :: (LibraryFn.all.mapIdx fun i f => (f.name, .fn i f.ret)).reverse
  data := []
  fns := LibraryFn.all.mapIdx Table.libraryInfo ++ [.declared entryIndex .void []]
  main := none

/-- The names in scope outside of functions. -/
def env (d : Draft) : Env :=
  ⟨⟨d.outer, none⟩, .void⟩

/-- The names in scope and all else that is known where the body of a function begins. The function
itself is in scope. -/
def start (d : Draft) (f : FnItem) : Point where
  env := ⟨⟨(f.name.name, .fn d.fns.length f.ret) :: d.outer, some (FnItem.layer 0 [] f.params)⟩, f.ret⟩
  locals := []
  data := d.data
  last := none

/-- Adds a function. -/
def addFn (d : Draft) (f : FnItem) : Draft :=
  let (code, q) := f.body.gen (d.start f)
  { outer := q.env.outer
    data := q.data
    fns := d.fns ++ [⟨d.fns.length, f.ret, f.signature, q.locals, code ++ f.epilogue, false⟩]
    main := if f.name.name = mainName then some d.fns.length else d.main }

/-- Adds a global. -/
def addDecl (d : Draft) (g : Decl) : Draft :=
  let slot := d.data.length + g.texts.length
  { d with
    outer := (g.name.name, .var (.glob slot) g.type.ty g.isConst) :: d.outer
    data := d.data ++ g.texts.map .ofText ++ [.scalar g.isConst]
    fns := d.fns.modify entryIndex (·.extend (g.globalCode d.env d.data.length)) }

/-- Adds a part of a program. -/
def add (d : Draft) : Item → Draft
  | .fn f => d.addFn f
  | .decl g => d.addDecl g

/-- The call of `main`. -/
def mainCall (d : Draft) : List Instr :=
  match d.main with
  | none => []
  | some main =>
    [.withOperand .stackalloc (Int64.ofNat (d.fns[main]?.elim 0 FnInfo.returnSlots)),
     .withOperand .call (Int64.ofNat (main - entryIndex))]

/-- Adds the call of `main`. -/
def finish (d : Draft) : Draft :=
  { d with fns := d.fns.modify entryIndex (·.extend d.mainCall) }

end Draft

/-- What generation makes of the parts of a program. -/
def Program.draft (p : Program) : Draft :=
  (p.items.foldl Draft.add .initial).finish

/-! ### Static rules -/

/-- A function keeps the static rules. -/
structure FnItem.Legal (d : Draft) (f : FnItem) : Prop where
  params : ∀ p ∈ f.params, p.type.IsStorable
  ret : ∃ type, f.type = .ok type ∧ (Ty.ofName? type.name).isSome
  fresh : d.outer.lookup f.name.name = none
  distinct : (f.params.map (·.name.name)).Nodup
  body : f.body.Legal (d.start f)

/-- A part of a program keeps the static rules. -/
def Item.Legal (d : Draft) : Item → Prop
  | .fn f => f.Legal d
  | .decl g => g.Fits d.env ∧ d.env.declares g.name.name = false

/-- The parts of a program keep the static rules. -/
def LegalItems (d : Draft) : List Item → Prop
  | [] => True
  | i :: rest => i.Legal d ∧ LegalItems (d.add i) rest

/-- A program keeps the static rules, and its source ends where it does. -/
def Program.Legal (p : Program) : Prop :=
  LegalItems .initial p.items ∧ ∃ position, p.finish = .ok position

end CZero
