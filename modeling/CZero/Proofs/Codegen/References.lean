import CZero.Proofs.Codegen.Scope

/-!
# What operands stand for

The tree says what each operand of the code has to stand for, with names instead of numbers: a number of
the source, a string literal, a variable, room for the result of a function, or the function itself
(`Expr.references`, `Stmt.references`). A `Roster` numbers what a program declares outside of functions,
and a `Shape` the variables of a function. Main statement (`Stmt.spells_gen`): read from left to right,
the operands of generated code are those numbers, and apart from them there are only branches.

    x = f("a") + y       x, room for f, literal, f, y
    let z: int = 5;      next variable, 5
    return e;            result, then what e refers to
-/

namespace CZero

/-- What an operand stands for. -/
inductive Reference where
  /-- A number that the source gives. -/
  | number (value : Int64)
  /-- The `k`-th string literal of the program. -/
  | literal (k : Nat)
  /-- The `k`-th variable of the function around, parameters first. -/
  | own (k : Nat)
  /-- The result of the function around. -/
  | result
  | global (name : String)
  /-- Room for the result of a function. -/
  | room (name : String)
  | call (name : String)
deriving DecidableEq

/-- What takes a global. -/
inductive Registration where
  | scalar (name : String) (isConst : Bool)
  | literal (text : String)
deriving DecidableEq

/-- Whether a literal takes the global. -/
def Registration.isLiteral : Registration → Bool
  | .scalar _ _ => false
  | .literal _ => true

/-- What a program declares outside of functions, in order. -/
structure Roster where
  globals : List Registration
  /-- The functions with their result types. The first is the one that the program starts in. -/
  functions : List (String × Ty)
deriving DecidableEq

/-- What a function has on the stack. -/
structure Shape where
  params : Nat
  locals : Nat
  ret : Ty
deriving DecidableEq

/-- The instruction that has the operand for a reference. -/
inductive Roster.Resolves (r : Roster) (fr : Shape) : Reference → Instr → Prop
  | number (v : Int64) : Resolves r fr (.number v) (.withOperand .push v)
  /-- The literal's own global: as many literals come before it. -/
  | literal {k i : Nat} {text : String} (at_i : r.globals[i]? = some (.literal text))
      (before : (r.globals.take i).countP Registration.isLiteral = k) :
      Resolves r fr (.literal k) (.withOperand .push (Int64.ofNat i))
  | global {name : String} {isConst : Bool} {i : Nat} (at_i : r.globals[i]? = some (.scalar name isConst)) :
      Resolves r fr (.global name) (.withOperand .globa (Int64.ofNat i))
  | param {k : Nat} (lt : k < fr.params) :
      Resolves r fr (.own k) (.withOperand .arga (Int64.ofNat (k + fr.ret.returnSlots)))
  | loc {k : Nat} (lt : k < fr.locals) :
      Resolves r fr (.own (fr.params + k)) (.withOperand .loca (Int64.ofNat k))
  | result : Resolves r fr .result (.withOperand .arga 0)
  | room {name : String} {ret : Ty} {i : Nat} (at_i : r.functions[i]? = some (name, ret)) :
      Resolves r fr (.room name) (.withOperand .stackalloc (Int64.ofNat ret.returnSlots))
  | libraryRoom {f : LibraryFn} {i : Nat} (at_i : LibraryFn.all[i]? = some f) :
      Resolves r fr (.room f.name) (.withOperand .stackalloc (Int64.ofNat f.ret.returnSlots))
  | call {name : String} {ret : Ty} {i : Nat} (at_i : r.functions[i]? = some (name, ret)) :
      Resolves r fr (.call name) (.withOperand .call (Int64.ofNat i))
  | libraryCall {f : LibraryFn} {i : Nat} (at_i : LibraryFn.all[i]? = some f) :
      Resolves r fr (.call f.name) (.withOperand .callname (Int64.ofNat i))

/-- The operands of some code stand for the references, in order, apart from those of branches. -/
inductive Roster.Spells (r : Roster) (fr : Shape) : List Instr → List Reference → Prop
  | nil : Spells r fr [] []
  | plain {op : Opcode} {code : List Instr} {refs : List Reference} (h : op.hasOperand = false)
      (rest : Spells r fr code refs) : Spells r fr (.plain op :: code) refs
  | branch {op : Opcode} {v : Int64} {code : List Instr} {refs : List Reference} (h : op.isBranch)
      (rest : Spells r fr code refs) : Spells r fr (.withOperand op v :: code) refs
  | cons {ref : Reference} {i : Instr} {code : List Instr} {refs : List Reference}
      (h : r.Resolves fr ref i) (rest : Spells r fr code refs) : Spells r fr (i :: code) (ref :: refs)

/-! ### References of a tree -/

/-- What a name refers to behind the declarations of `σ`. -/
def Ident.reference (σ : List String) (name : Ident) : Reference :=
  if name.name ∈ σ then .own (σ.reverse.idxOf name.name) else .global name.name

mutual

/-- What an expression refers to behind the declarations of `σ` and `k` string literals. -/
def Expr.references (σ : List String) (k : Nat) : Expr → List Reference
  | .hole _ | .cutOff _ _ | .double _ => []
  | .uint value => [.number value.toInt64]
  | .string _ => [.literal k]
  | .char c => [.number (Int64.ofNat c.toNat)]
  | .load name => [name.reference σ]
  | .assign name e => name.reference σ :: e.references σ k
  | .call name args => .room name.name :: args.references σ k ++ [.call name.name]
  | .paren e | .cast e _ | .neg _ e => e.references σ k
  | .arith _ lhs rhs | .compare _ lhs rhs =>
    lhs.references σ k ++ rhs.references σ (k + lhs.texts.length)

/-- What arguments refer to. -/
def Args.references (σ : List String) (k : Nat) : Args → List Reference
  | .close | .cutOff _ => []
  | .arg e rest => e.references σ k ++ rest.references σ (k + e.texts.length)

end

/-- What a local declaration refers to: the variable that it declares, if there is an initial value. -/
def Decl.references (σ : List String) (k : Nat) (d : Decl) : List Reference :=
  d.init.elim [] fun e => .own σ.length :: e.references σ k

mutual

/-- What a statement refers to. -/
def Stmt.references (σ : List String) (k : Nat) : Stmt → List Reference
  | .decl d => d.references σ k
  | .cond c => c.references σ k
  | .loop c body => c.references σ k ++ body.references σ (k + c.texts.length)
  | .ret _ value => value.elim [] fun e => .result :: e.references σ k
  | .block b => b.references σ k
  | .empty => []
  | .expr e => e.references σ k

/-- What a block refers to. -/
def Block.references (σ : List String) (k : Nat) : Block → List Reference
  | .close | .cutOff _ => []
  | .stmt s rest => s.references σ k ++ rest.references (s.scope σ) (k + s.texts.length)

/-- What a conditional statement refers to. -/
def IfChain.references (σ : List String) (k : Nat) : IfChain → List Reference
  | .mk c body otherwise =>
    c.references σ k ++ body.references σ (k + c.texts.length)
      ++ otherwise.references (body.scope σ) (k + c.texts.length + body.texts.length)

/-- What refers to something behind a conditional block. -/
def Else.references (σ : List String) (k : Nat) : Else → List Reference
  | .absent => []
  | .block b => b.references σ k
  | .chain c => c.references σ k

end

/-! ### Code that spells references -/

namespace Roster.Spells

variable {r : Roster} {fr : Shape}

theorem append {code more : List Instr} {refs refs' : List Reference} (h : r.Spells fr code refs)
    (h' : r.Spells fr more refs') : r.Spells fr (code ++ more) (refs ++ refs') := by
  induction h with
  | nil => exact h'
  | plain op _ ih => exact .plain op ih
  | branch op _ ih => exact .branch op ih
  | cons i _ ih => exact .cons i ih

theorem singleton {ref : Reference} {i : Instr} (h : r.Resolves fr ref i) : r.Spells fr [i] [ref] :=
  .cons h .nil

/-- Code without references behind other code. -/
theorem tail {code more : List Instr} {refs : List Reference} (h : r.Spells fr code refs)
    (h' : r.Spells fr more []) : r.Spells fr (code ++ more) refs := by
  have := h.append h'
  rwa [List.append_nil] at this

theorem op {op : Opcode} (h : op.hasOperand = false) : r.Spells fr [.plain op] [] :=
  .plain h .nil

theorem ops {op : Opcode} (h : op.hasOperand = false) (n : Nat) :
    r.Spells fr (List.replicate n (.plain op)) [] := by
  induction n with
  | zero => exact .nil
  | succ n ih => exact .plain h ih

theorem jump (n : Int) : r.Spells fr [jumpBy n] [] :=
  .branch rfl .nil

theorem arith (op : ArithOp) : r.Spells fr [op.instr] [] := by
  cases op <;> exact .op rfl

theorem compare (op : CompareOp) : r.Spells fr op.code [] := by
  cases op <;> exact .plain rfl (by first | exact .branch rfl .nil | exact .plain rfl (.branch rfl .nil))

theorem test (P : Point) : r.Spells fr P.test [] := by
  unfold Point.test
  split
  · exact .nil
  · exact .branch rfl .nil

end Roster.Spells

/-! ### Names and literals -/

/-- The roster has what a name outside of functions stands for. -/
def Roster.Has (r : Roster) (name : String) : Binding → Prop
  | .var slot _ isConst => ∃ i, slot = .glob i ∧ r.globals[i]? = some (.scalar name isConst)
  | .fn index ret =>
    (∃ f, LibraryFn.all[index]? = some f ∧ f.name = name ∧ f.ret = ret) ∨
      entryIndex ≤ index ∧ r.functions[index - entryIndex]? = some (name, ret)

/-- The roster has all that a layer outside of functions declares. -/
def Roster.Covers (r : Roster) (outer : Layer) : Prop :=
  ∀ name b, (name, b) ∈ outer → r.Has name b

/-- Behind `n` globals and `k` literals among them come these literals. -/
def Roster.Places (r : Roster) (n k : Nat) (texts : List String) : Prop :=
  ∃ before after, r.globals = before ++ texts.map .literal ++ after ∧ before.length = n ∧
    before.countP Registration.isLiteral = k

/-- The names in scope behind the declarations of `σ` stand for what the roster and the frame have. -/
structure Env.Agrees (ρ : Env) (r : Roster) (fr : Shape) (σ : List String) : Prop where
  ret : ρ.ret = fr.ret
  room : σ.length ≤ fr.params + fr.locals
  own : ∀ name ∈ σ, ∃ ty isConst,
    ρ.find? name = some (.var (.ofVariable fr.params (σ.reverse.idxOf name)) ty isConst)
  outer : ∀ name ∉ σ, ∀ b, ρ.find? name = some b → r.Has name b

namespace Roster

variable {r : Roster} {fr : Shape}

theorem countP_literal (texts : List String) :
    (texts.map Registration.literal).countP Registration.isLiteral = texts.length := by
  rw [List.countP_map]
  exact List.countP_eq_length.2 fun _ _ => rfl

theorem Places.append {n k : Nat} {texts more : List String} (h : r.Places n k (texts ++ more)) :
    r.Places n k texts ∧ r.Places (n + texts.length) (k + texts.length) more := by
  obtain ⟨before, after, eq, rfl, rfl⟩ := h
  refine ⟨⟨before, more.map .literal ++ after, ?_, rfl, rfl⟩,
    ⟨before ++ texts.map .literal, after, ?_, by simp, ?_⟩⟩
  · simpa using eq
  · simpa using eq
  · rw [List.countP_append, countP_literal]

theorem Places.resolves {n k : Nat} {text : String} (h : r.Places n k [text]) :
    r.Resolves fr (.literal k) (.withOperand .push (Int64.ofNat n)) := by
  obtain ⟨before, after, eq, rfl, rfl⟩ := h
  exact @Resolves.literal r fr _ _ text (by simp [eq]) (by simp [eq])

end Roster

/-! ### Expressions -/

section Expressions

variable {r : Roster} {fr : Shape} {ρ : Env} {σ : List String}

theorem Env.Agrees.spells_own (h : ρ.Agrees r fr σ) {name : String} (mem : name ∈ σ) {slot : Slot} {ty : Ty}
    {isConst : Bool} (found : ρ.find? name = some (.var slot ty isConst)) :
    r.Spells fr (slot.code ρ.ret.returnSlots) [.own (σ.reverse.idxOf name)] := by
  obtain ⟨ty', isConst', found'⟩ := h.own name mem
  rw [found] at found'
  cases found'
  have lt : σ.reverse.idxOf name < σ.length := by
    rw [← List.length_reverse]
    exact List.idxOf_lt_length_of_mem (List.mem_reverse.2 mem)
  have room := h.room
  unfold Slot.ofVariable
  split
  case isTrue param =>
    rw [h.ret]
    exact .singleton (.param param)
  case isFalse behind =>
    obtain ⟨k, hk⟩ := Nat.exists_eq_add_of_le (Nat.le_of_not_lt behind)
    rw [hk, Nat.add_sub_cancel_left]
    exact .singleton (.loc (by omega))

theorem Env.Agrees.spells_address (h : ρ.Agrees r fr σ) {name : Ident} {slot : Slot} {ty : Ty} {isConst : Bool}
    (found : ρ.find? name.name = some (.var slot ty isConst)) :
    r.Spells fr (ρ.address name) [name.reference σ] := by
  unfold Env.address Ident.reference
  simp only [found]
  split
  case isTrue mem => exact h.spells_own mem found
  case isFalse new =>
    obtain ⟨i, rfl, at_i⟩ := h.outer _ new _ found
    exact .singleton (.global at_i)

/-- A function is known to the roster or to the library, whatever variables there are. -/
theorem Env.Agrees.has_callee (h : ρ.Agrees r fr σ) {name : String} {index : Nat} {ret : Ty}
    (found : ρ.find? name = some (.fn index ret)) : r.Has name (.fn index ret) := by
  refine h.outer name (fun mem => ?_) _ found
  obtain ⟨ty, isConst, own⟩ := h.own name mem
  rw [found] at own
  cases own

theorem Roster.Has.resolves {name : String} {index : Nat} {ret : Ty} (h : r.Has name (.fn index ret))
    (fr : Shape) :
    r.Resolves fr (.room name) (.withOperand .stackalloc (Int64.ofNat ret.returnSlots)) ∧
      r.Resolves fr (.call name) (callOf index) := by
  unfold callOf
  rcases h with ⟨f, at_i, rfl, rfl⟩ | ⟨le, at_i⟩
  · have lt : index < libraryCount := (List.getElem?_eq_some_iff.1 at_i).1
    rw [if_pos lt]
    exact ⟨.libraryRoom at_i, .libraryCall at_i⟩
  · have ge : ¬ index < libraryCount := Nat.not_lt.2 le
    rw [if_neg ge]
    exact ⟨.room at_i, .call at_i⟩

mutual

/-- The code of an expression spells what the expression refers to. -/
theorem Expr.spells_code {n k : Nat} (h : ρ.Agrees r fr σ) : (e : Expr) → (e.type? ρ).isSome →
    r.Places n k e.texts → r.Spells fr (e.code ρ n) (e.references σ k)
  | .hole _, typed, _ | .cutOff _ _, typed, _ => by simp [Expr.type?] at typed
  | .double _, _, _ => .nil
  | .uint _, _, _ | .char _, _, _ => .singleton (.number _)
  | .string _, _, places => .singleton places.resolves
  | .load name, typed, _ => by
    rw [Expr.type?] at typed
    split at typed
    case h_2 => cases typed
    case h_1 found => exact (h.spells_address found).tail (.op rfl)
  | .assign name e, typed, places => by
    rw [Expr.type?] at typed
    split at typed
    case h_2 => cases typed
    case h_1 found value =>
      have inner := e.spells_code h (by rw [value]; rfl) places
      exact ((h.spells_address found).append inner).tail (.op rfl)
  | .call name args, typed, places => by
    rw [Expr.type?] at typed
    rw [Expr.code, Expr.references]
    split at typed
    case h_2 => cases typed
    case h_1 index ret found =>
      have args_typed : args.typed ρ := by
        by_contra no
        rw [if_neg no] at typed
        cases typed
      obtain ⟨room, call⟩ := (h.has_callee found).resolves fr
      exact .cons room ((args.spells_code h args_typed places).append (.singleton call))
  | .paren e, typed, places => e.spells_code h typed places
  | .cast e _, typed, places => by
    rw [Expr.type?] at typed
    split at typed
    case isFalse => cases typed
    case isTrue => exact e.spells_code h typed places
  | .neg _ e, typed, places => (e.spells_code h typed places).tail (.ops rfl _)
  | .arith op lhs rhs, typed, places => by
    rw [Expr.type?] at typed
    split at typed
    case isFalse => cases typed
    case isTrue right =>
      have first := lhs.spells_code h typed places.append.1
      have second := rhs.spells_code h right places.append.2
      exact (first.append second).tail (.arith op)
  | .compare op lhs rhs, typed, places => by
    rw [Expr.type?] at typed
    split at typed
    case isFalse => cases typed
    case isTrue right =>
      have first := lhs.spells_code h typed places.append.1
      have second := rhs.spells_code h right places.append.2
      exact (first.append second).tail (.compare op)

theorem Args.spells_code {n k : Nat} (h : ρ.Agrees r fr σ) : (as : Args) → as.typed ρ →
    r.Places n k as.texts → r.Spells fr (as.code ρ n) (as.references σ k)
  | .close, _, _ | .cutOff _, _, _ => .nil
  | .arg e rest, typed, places => by
    rw [Args.typed, Bool.and_eq_true] at typed
    exact (e.spells_code h typed.1 places.append.1).append (rest.spells_code h typed.2 places.append.2)

end

end Expressions

/-! ### Statements -/

/-- Inside a function the variables are those in scope, and all other names are found outside. -/
theorem Point.IsAt.agrees {r : Roster} {P : Point} {params locals n : Nat} {outer : Layer} {ret : Ty}
    {σ : List String} (h : P.IsAt params outer ret σ n) (covers : r.Covers outer)
    (room : σ.length ≤ params + locals) : P.env.Agrees r ⟨params, locals, ret⟩ σ := by
  obtain ⟨l, inner, rfl, ordered⟩ := h.inner
  have find (name : String) : P.env.find? name = (l.lookup name).or (outer.lookup name) := by
    rw [Names.find?, inner, Option.bind_some, h.outer]
  refine ⟨h.ret, room, fun name mem => ?_, fun name new b found => ?_⟩
  · cases own : l.lookup name with
    | none => exact absurd mem (Layer.not_mem_of_lookup own)
    | some b =>
      obtain ⟨k, at_k⟩ := List.mem_iff_getElem?.1 (List.mem_reverse.2 (Layer.mem_of_lookup own))
      obtain ⟨ty, isConst, rfl⟩ := ordered k name b at_k
      -- names are declared once, so the place of the variable is the first place of its name
      have place : (l.map Prod.fst).reverse[k]? = some name := by
        rw [← List.map_reverse, List.getElem?_map, at_k, Option.map_some]
      obtain ⟨lt, eq⟩ := List.getElem?_eq_some_iff.1 place
      have idx : (l.map Prod.fst).reverse.idxOf name = k := by
        rw [← eq]
        exact (List.nodup_reverse.2 h.nodup).idxOf_getElem k lt
      exact ⟨ty, isConst, by rw [find, own, Option.some_or, idx]⟩
  · rw [find, Option.or_eq_some_iff] at found
    rcases found with own | ⟨-, global⟩
    · exact absurd (List.mem_map_of_mem (f := Prod.fst) (Layer.mem_of_lookup own)) new
    · exact covers name b (Layer.mem_of_lookup global)

section Parts

variable {r : Roster} {fr : Shape} {P : Point} {σ : List String} {k : Nat}

theorem Roster.Spells.loopCode {test inside : List Instr} {refs refs' : List Reference}
    (ht : r.Spells fr test refs) (hi : r.Spells fr inside refs') :
    r.Spells fr (loopCode test inside) (refs ++ refs') :=
  ((((jump 0).append ht).tail (jump _)).append hi).tail (jump _)

theorem Roster.Spells.ifCode {test inside : List Instr} {other : Option (List Instr)}
    {refs refs' more : List Reference} (ht : r.Spells fr test refs) (hi : r.Spells fr inside refs')
    (ho : r.Spells fr (other.getD []) more) :
    r.Spells fr (ifCode test inside other) (refs ++ refs' ++ more) := by
  have first := (ht.tail (jump (inside.length + 1))).append hi
  cases other with
  | none =>
    cases ho
    rw [List.append_nil]
    exact first.tail (jump 0)
  | some code => exact ((first.tail (jump _)).append ho).tail (jump 0)

variable (h : P.env.Agrees r fr σ)
include h

theorem Expr.spells_gen (e : Expr) (typed : ∃ ty, e.type? P.env = some ty)
    (places : r.Places P.data.length k e.texts) : r.Spells fr (e.gen P).1 (e.references σ k) :=
  e.spells_code h (Option.isSome_iff_exists.2 typed) places

theorem Expr.spells_genCond (e : Expr) (typed : ∃ ty, e.type? P.env = some ty)
    (places : r.Places P.data.length k e.texts) : r.Spells fr (e.genCond P).1 (e.references σ k) :=
  (e.spells_gen h typed places).tail (.test _)

theorem Expr.spells_genStore {ref : Reference} {i : Instr} (e : Expr) (address : r.Resolves fr ref i)
    (typed : ∃ ty, e.type? P.env = some ty) (places : r.Places P.data.length k e.texts) :
    r.Spells fr (e.genStore P [i]).1 (ref :: e.references σ k) :=
  .cons address ((e.spells_gen (P := P.emit [i]) h typed places).tail (.op rfl))

theorem spells_genRet (value : Option Expr) (legal : LegalRet P.env value)
    (places : r.Places P.data.length k (value.elim [] Expr.texts)) :
    r.Spells fr (genRet P value).1 (value.elim [] fun e => .result :: e.references σ k) := by
  cases value with
  | none => exact .op rfl
  | some e => exact (e.spells_genStore h .result ⟨_, legal.1⟩ places).tail (.op rfl)

/-- The slot of a variable is reserved before its initial value, where its name is not in scope. -/
theorem Decl.spells_gen (d : Decl) (fits : d.Fits P.env)
    (slot : r.Resolves fr (.own σ.length) (.withOperand .loca (Int64.ofNat P.locals.length)))
    (places : r.Places P.data.length k d.texts) : r.Spells fr (d.gen P).1 (d.references σ k) := by
  unfold Decl.gen Decl.references
  unfold Decl.texts at places
  cases hi : d.init with
  | none => exact .nil
  | some e =>
    rw [hi] at places
    obtain ⟨ty, typed, -⟩ := fits.2.2 e hi
    exact e.spells_genStore (P := P.reserve d.name.name) h slot ⟨ty, typed⟩ places

end Parts

section Statements

variable {r : Roster} {params locals : Nat} {outer : Layer} {ret : Ty}

mutual

/-- The code of a statement spells what the statement refers to. -/
theorem Stmt.spells_gen {P : Point} {σ : List String} {n k : Nat} (covers : r.Covers outer)
    (h : P.IsAt params outer ret σ n) :
    (s : Stmt) → s.Legal P → (s.scope σ).length ≤ params + locals → r.Places n k s.texts →
      r.Spells ⟨params, locals, ret⟩ (s.gen P).1 (s.references σ k)
  | .decl d, legal, room, places => by
    rw [Stmt.scope, List.length_cons] at room
    have slot : r.Resolves ⟨params, locals, ret⟩ (.own σ.length)
        (.withOperand .loca (Int64.ofNat P.locals.length)) := by
      have count := h.locals
      rw [← count]
      exact .loc (show P.locals.length < locals by omega)
    rw [← h.data] at places
    exact d.spells_gen (h.agrees covers (by omega)) legal.1 slot places
  | .cond c, legal, room, places => c.spells_gen covers h legal room places
  | .loop e body, legal, room, places => by
    have inner := (h.jump.genCond e).jump
    have grows := (body.suffix_scope σ).length_le
    obtain ⟨first, second⟩ := places.append
    have inside := body.spells_gen covers inner legal.2 room second
    rw [← h.data] at first
    have test := e.spells_genCond (P := P.jump) (h.jump.agrees covers (Nat.le_trans grows room)) legal.1 first
    exact test.loopCode inside
  | .ret _ value, legal, room, places =>
    spells_genRet (h.agrees covers room) value legal (by rw [h.data]; exact places)
  | .block b, legal, room, places => b.spells_gen covers h legal room places
  | .empty, _, _, _ => .nil
  | .expr e, legal, room, places =>
    e.spells_gen (h.agrees covers room) legal (by rw [h.data]; exact places)

theorem Block.spells_gen {P : Point} {σ : List String} {n k : Nat} (covers : r.Covers outer)
    (h : P.IsAt params outer ret σ n) :
    (b : Block) → b.Legal P → (b.scope σ).length ≤ params + locals → r.Places n k b.texts →
      r.Spells ⟨params, locals, ret⟩ (b.gen P).1 (b.references σ k)
  | .close, _, _, _ | .cutOff _, _, _, _ => .nil
  | .stmt s rest, legal, room, places => by
    have grows := (rest.suffix_scope (s.scope σ)).length_le
    have first := s.spells_gen covers h legal.1 (Nat.le_trans grows room) places.append.1
    exact first.append (rest.spells_gen covers (legal.1.isAt h) legal.2 room places.append.2)

theorem IfChain.spells_gen {P : Point} {σ : List String} {n k : Nat} (covers : r.Covers outer)
    (h : P.IsAt params outer ret σ n) :
    (c : IfChain) → c.Legal P → (c.scope σ).length ≤ params + locals → r.Places n k c.texts →
      r.Spells ⟨params, locals, ret⟩ (c.gen P).1 (c.references σ k)
  | .mk e body otherwise, legal, room, places => by
    have inner := (h.genCond e).jump
    have after := legal.2.1.isAt inner
    have grows := (otherwise.suffix_scope (body.scope σ)).length_le
    have inside_room : (body.scope σ).length ≤ params + locals := Nat.le_trans grows room
    obtain ⟨both, third⟩ := places.append
    obtain ⟨first, second⟩ := both.append
    rw [List.length_append, ← Nat.add_assoc, ← Nat.add_assoc] at third
    have inside := body.spells_gen covers inner legal.2.1 inside_room second
    have other := otherwise.spells_gen covers after legal.2.2 room third
    rw [← h.data] at first
    have own := Nat.le_trans (body.suffix_scope σ).length_le inside_room
    exact (e.spells_genCond (h.agrees covers own) legal.1 first).ifCode inside other

theorem Else.spells_gen {P : Point} {σ : List String} {n k : Nat} (covers : r.Covers outer)
    (h : P.IsAt params outer ret σ n) :
    (o : Else) → o.Legal P → (o.scope σ).length ≤ params + locals → r.Places n k o.texts →
      r.Spells ⟨params, locals, ret⟩ ((o.gen P).1.getD []) (o.references σ k)
  | .absent, _, _, _ => .nil
  | .block b, legal, room, places => b.spells_gen covers h.jump legal room places
  | .chain c, legal, room, places => c.spells_gen covers h.jump legal room places

end

end Statements

end CZero
