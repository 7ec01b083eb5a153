import CZero.Proofs.Lowering.Faults

/-!
# Sources that are alike

Two sources are alike if they have the same tokens, except that the second one has other names for what the
first one declares. A `Likeness` says how: which name stands for which, and which places and which faults of
the text correspond. From it follows what it means for feeds, for trees and for diagnostics to be alike.

    first source                           second source
    fn f(a: int) -> int { return a; }      fn  g ( b : int )->int{return b;}
    let x: int = y;                        let x: int = z;
        not declared: y, at 1:14               not declared: z, at 1:14

The likeness of a source with itself is of use too: if it holds, then all places that a diagnostic can name
are related to themselves.
-/

namespace CZero

/-- The names with a meaning of their own: the types, the functions that are always there, and `main`. -/
def reservedNames : List String :=
  ["int", "double", "void", mainName, entryName] ++ LibraryFn.all.map (·.name)

/-- A lexeme with other names. -/
def Lexeme.rename (name : String → String) : Lexeme → Lexeme
  | .ident x => .ident (name x)
  | l => l

/-- The second cause is the first with other names: of a name, or of the token that was found. -/
inductive Cause.Renamed (name : String → String) : Cause → Cause → Prop
  | expectedToken (expected : List String) (l : Lexeme) :
    Renamed name (.expectedToken expected l.describe) (.expectedToken expected (l.rename name).describe)
  | duplicateDeclaration (x : String) : Renamed name (.duplicateDeclaration x) (.duplicateDeclaration (name x))
  | notDeclared (x : String) : Renamed name (.notDeclared x) (.notDeclared (name x))
  | assignToConstant (x : String) : Renamed name (.assignToConstant x) (.assignToConstant (name x))
  | unknownType (x : String) : Renamed name (.unknownType x) (.unknownType (name x))
  | invalidAssignment : Renamed name .invalidAssignment .invalidAssignment
  | returnTypeMismatch : Renamed name .returnTypeMismatch .returnTypeMismatch
  | mainMissing : Renamed name .mainMissing .mainMissing

theorem Cause.Renamed.isLexical {name : String → String} {c c' : Cause} (h : c.Renamed name c') :
    c.isLexical = false := by
  cases h <;> rfl

/-- How two sources are alike. -/
structure Likeness where
  /-- The name in the second source for a name in the first. -/
  name : String → String
  injective : Function.Injective name
  reserved : ∀ x ∈ reservedNames, name x = x
  /-- The places correspond. -/
  At : Position → Position → Prop
  /-- The places are those at which the sources end. -/
  Ends : Position → Position → Prop
  at_of_ends : ∀ {p p'}, Ends p p' → At p p'
  /-- The faults of the text correspond. -/
  Fault : Diagnostic → Diagnostic → Prop

namespace Likeness

variable (κ : Likeness)

/-! ### Diagnostics and tokens -/

/-- The diagnostics are alike: they are corresponding faults of the text, they name corresponding places, or
they are the same fault of the compiler. -/
inductive Faults : Diagnostic → Diagnostic → Prop
  | text {d d'} : κ.Fault d d' → Faults d d'
  | place {c c' p p'} : c.Renamed κ.name c' → κ.At p p' → Faults ⟨c, p⟩ ⟨c', p'⟩
  | internal {c} : c.IsInternal → Faults ⟨c, .nowhere⟩ ⟨c, .nowhere⟩

/-- The feeds have the same tokens, with other names and at corresponding places. -/
inductive Feeds : Feed → Feed → Prop
  | token {t t' rest rest'} : t'.lexeme = t.lexeme.rename κ.name → κ.At t.start t'.start → Feeds rest rest' →
    Feeds (.token t rest) (.token t' rest')
  | done {p p'} : κ.Ends p p' → Feeds (.done p) (.done p')
  | stuck {d d'} : κ.Faults d d' → Feeds (.stuck d) (.stuck d')

/-! ### Trees -/

/-- The names correspond. -/
structure Idents (x x' : Ident) : Prop where
  name : x'.name = κ.name x.name
  start : κ.At x.start x'.start

/-- Both are faults, or both are there. -/
inductive Results {α : Type} (R : α → α → Prop) : Except Diagnostic α → Except Diagnostic α → Prop
  | ok {a a'} : R a a' → Results R (.ok a) (.ok a')
  | error {d d'} : κ.Faults d d' → Results R (.error d) (.error d')

mutual

/-- The expressions are alike. -/
inductive Exprs : Expr → Expr → Prop
  | hole {d d'} : κ.Faults d d' → Exprs (.hole d) (.hole d')
  | cutOff {e e' d d'} : Exprs e e' → κ.Faults d d' → Exprs (.cutOff e d) (.cutOff e' d')
  | uint (value : UInt64) : Exprs (.uint value) (.uint value)
  | double (value : Binary64) : Exprs (.double value) (.double value)
  | string (text : String) : Exprs (.string text) (.string text)
  | char (c : Char) : Exprs (.char c) (.char c)
  | load {x x'} : κ.Idents x x' → Exprs (.load x) (.load x')
  | assign {x x' e e'} : κ.Idents x x' → Exprs e e' → Exprs (.assign x e) (.assign x' e')
  | call {x x' as as'} : κ.Idents x x' → Arglists as as' → Exprs (.call x as) (.call x' as')
  | paren {e e'} : Exprs e e' → Exprs (.paren e) (.paren e')
  | neg (signs : Nat) {e e'} : Exprs e e' → Exprs (.neg signs e) (.neg signs e')
  | cast {e e' x x'} : Exprs e e' → κ.Idents x x' → Exprs (.cast e x) (.cast e' x')
  | arith (op : ArithOp) {e e' g g'} : Exprs e e' → Exprs g g' → Exprs (.arith op e g) (.arith op e' g')
  | compare (op : CompareOp) {e e' g g'} : Exprs e e' → Exprs g g' →
    Exprs (.compare op e g) (.compare op e' g')

/-- The arguments are alike. -/
inductive Arglists : Args → Args → Prop
  | close : Arglists .close .close
  | cutOff {d d'} : κ.Faults d d' → Arglists (.cutOff d) (.cutOff d')
  | arg {e e' as as'} : Exprs e e' → Arglists as as' → Arglists (.arg e as) (.arg e' as')

end

theorem Exprs.negate {e e' : Expr} (h : κ.Exprs e e') : κ.Exprs e.negate e'.negate := by
  cases h with
  | neg signs inner => exact .neg (signs + 1) inner
  | _ => exact .neg 1 (by constructor <;> assumption)

/-- The declarations are alike. -/
structure Decls (d d' : Decl) : Prop where
  isConst : d'.isConst = d.isConst
  name : κ.Idents d.name d'.name
  type : κ.Idents d.type d'.type
  init : Option.Rel κ.Exprs d.init d'.init
  cutOff : Option.Rel κ.Faults d.cutOff d'.cutOff

mutual

/-- The statements are alike. -/
inductive Stmts : Stmt → Stmt → Prop
  | decl {d d'} : κ.Decls d d' → Stmts (.decl d) (.decl d')
  | cond {c c'} : Chains c c' → Stmts (.cond c) (.cond c')
  | loop {e e' b b'} : κ.Exprs e e' → Blocks b b' → Stmts (.loop e b) (.loop e' b')
  | ret {p p' v v'} : κ.At p p' → Option.Rel κ.Exprs v v' → Stmts (.ret p v) (.ret p' v')
  | block {b b'} : Blocks b b' → Stmts (.block b) (.block b')
  | empty : Stmts .empty .empty
  | expr {e e'} : κ.Exprs e e' → Stmts (.expr e) (.expr e')

/-- The blocks are alike. -/
inductive Blocks : Block → Block → Prop
  | close : Blocks .close .close
  | cutOff {d d'} : κ.Faults d d' → Blocks (.cutOff d) (.cutOff d')
  | stmt {s s' b b'} : Stmts s s' → Blocks b b' → Blocks (.stmt s b) (.stmt s' b')

/-- The conditional statements are alike. -/
inductive Chains : IfChain → IfChain → Prop
  | mk {e e' b b' o o'} : κ.Exprs e e' → Blocks b b' → Elses o o' → Chains (.mk e b o) (.mk e' b' o')

/-- What follows a conditional block is alike. -/
inductive Elses : Else → Else → Prop
  | absent : Elses .absent .absent
  | block {b b'} : Blocks b b' → Elses (.block b) (.block b')
  | chain {c c'} : Chains c c' → Elses (.chain c) (.chain c')

end

/-- The parameters are alike. -/
structure Params (p p' : Param) : Prop where
  isConst : p'.isConst = p.isConst
  name : κ.Idents p.name p'.name
  type : κ.Idents p.type p'.type

/-- The functions are alike. -/
structure Fns (f f' : FnItem) : Prop where
  name : κ.Idents f.name f'.name
  params : List.Forall₂ κ.Params f.params f'.params
  type : κ.Results κ.Idents f.type f'.type
  body : κ.Blocks f.body f'.body

/-- The parts of programs are alike. -/
inductive Items : Item → Item → Prop
  | fn {f f'} : κ.Fns f f' → Items (.fn f) (.fn f')
  | decl {d d'} : κ.Decls d d' → Items (.decl d) (.decl d')

/-- The programs are alike. -/
structure Programs (p p' : Program) : Prop where
  items : List.Forall₂ κ.Items p.items p'.items
  finish : κ.Results κ.Ends p.finish p'.finish

/-! ### What is read next -/

/-- What was read is alike, and so is what is left. -/
structure Reads {α : Type} {P P' : Feed → Prop} (R : α → α → Prop) (x : α × { r : Feed // P r })
    (x' : α × { r : Feed // P' r }) : Prop where
  value : R x.1 x'.1
  rest : κ.Feeds x.2.1 x'.2.1

variable {κ} {f f' : Feed}

theorem Feeds.size_eq (h : κ.Feeds f f') : f'.size = f.size := by
  induction h with
  | token _ _ _ ih => exact congrArg (· + 1) ih
  | done | stuck => rfl

theorem Feeds.complaint (h : κ.Feeds f f') (expected : List String) :
    κ.Faults (f.complaint expected) (f'.complaint expected) := by
  cases h with
  | @token t t' _ _ lexeme start _ =>
    rw [Feed.complaint, Feed.complaint, lexeme]
    exact .place (.expectedToken expected t.lexeme) start
  | done ends => exact .place (.expectedToken expected .endOfFile) (κ.at_of_ends ends)
  | stuck d => exact d

theorem Feeds.stop (h : κ.Feeds f f') (expected : List String) :
    κ.Feeds (.stuck (f.complaint expected)) (.stuck (f'.complaint expected)) :=
  .stuck (h.complaint expected)

/-- Only identifiers have other names. -/
theorem rename_eq_iff {l t : Lexeme} (plain : ∀ x, l ≠ .ident x) : t.rename κ.name = l ↔ t = l := by
  cases t with
  | ident x => exact ⟨fun eq => absurd eq.symm (plain _), fun eq => absurd eq.symm (plain _)⟩
  | _ => rfl

/-- Both feeds have the token that is looked for, or none has. -/
theorem Feeds.after? (h : κ.Feeds f f') {l : Lexeme} (plain : ∀ x, l ≠ .ident x) :
    (f.after? l = none ∧ f'.after? l = none) ∨
      ∃ r r', f.after? l = some r ∧ f'.after? l = some r' ∧ κ.Feeds r.1 r'.1 := by
  cases h with
  | @token t t' rest rest' lexeme start more =>
    rw [Feed.after?, Feed.after?, lexeme]
    by_cases eq : t.lexeme = l
    · rw [if_pos eq, if_pos ((rename_eq_iff plain).2 eq)]
      exact .inr ⟨_, _, rfl, rfl, more⟩
    · rw [if_neg eq, if_neg (mt (rename_eq_iff plain).1 eq)]
      exact .inl ⟨rfl, rfl⟩
  | done | stuck => exact .inl ⟨rfl, rfl⟩

theorem Feeds.punct? (h : κ.Feeds f f') (p : Punct) :
    (f.after? (.punct p) = none ∧ f'.after? (.punct p) = none) ∨
      ∃ r r', f.after? (.punct p) = some r ∧ f'.after? (.punct p) = some r' ∧ κ.Feeds r.1 r'.1 :=
  h.after? nofun

theorem Feeds.keyword? (h : κ.Feeds f f') (k : Keyword) :
    (f.after? (.keyword k) = none ∧ f'.after? (.keyword k) = none) ∨
      ∃ r r', f.after? (.keyword k) = some r ∧ f'.after? (.keyword k) = some r' ∧ κ.Feeds r.1 r'.1 :=
  h.after? nofun

/-- Both feeds have the same operator, or none has any. -/
theorem Feeds.operator? {α : Type} (h : κ.Feeds f f') (pick : Punct → Option α) :
    (f.operator? pick = none ∧ f'.operator? pick = none) ∨
      ∃ op r r', f.operator? pick = some (op, r) ∧ f'.operator? pick = some (op, r') ∧ κ.Feeds r.1 r'.1 := by
  cases h with
  | @token t t' rest rest' lexeme start more =>
    rw [Feed.operator?, Feed.operator?, lexeme]
    cases t.lexeme with
    | punct p =>
      cases eq : pick p with
      | none => exact .inl (by simp [Lexeme.rename, eq])
      | some op =>
        exact .inr ⟨op, .first t rest, .first t' rest', by simp only [eq, Option.map_some],
          by simp only [Lexeme.rename, eq, Option.map_some], more⟩
    | _ => exact .inl ⟨rfl, rfl⟩
  | done | stuck => exact .inl ⟨rfl, rfl⟩

theorem Feeds.skip (h : κ.Feeds f f') (p : Punct) : κ.Feeds (f.skip p).1 (f'.skip p).1 := by
  rcases h.punct? p with ⟨eq, eq'⟩ | ⟨r, r', eq, eq', more⟩
  · rw [Feed.skip, Feed.skip, eq, eq']
    exact h.stop _
  · rw [Feed.skip, Feed.skip, eq, eq']
    exact more

theorem Feeds.ident (h : κ.Feeds f f') : κ.Reads (κ.Results κ.Idents) f.ident f'.ident := by
  have no : κ.Reads (κ.Results κ.Idents) (Feed.ident.noIdent f) (Feed.ident.noIdent f') :=
    ⟨.error (h.complaint _), h.stop _⟩
  cases h with
  | @token t t' rest rest' lexeme start more =>
    obtain ⟨l, p, q⟩ := t
    obtain ⟨l', p', q'⟩ := t'
    obtain rfl : l' = l.rename κ.name := lexeme
    cases l with
    | ident x => exact ⟨.ok ⟨rfl, start⟩, more⟩
    | _ => exact no
  | done | stuck => exact no

end Likeness

end CZero
