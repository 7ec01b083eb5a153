import CZero.Proofs.Codegen.Scope
import CZero.Proofs.Grammar.Size

/-!
# How much code there is

At most three instructions for each token. Variables, string literals and functions take at least one token
each, so there are no more of them than tokens.
-/

namespace CZero

theorem Slot.length_code_le (r : Nat) (slot : Slot) : (slot.code r).length ≤ 1 := by
  cases slot with
  | arg | loc | glob => exact Nat.le_refl 1
  | fn => exact Nat.zero_le 1

theorem Env.length_address_le (ρ : Env) (name : Ident) : (ρ.address name).length ≤ 1 := by
  unfold Env.address
  split
  · exact Slot.length_code_le _ _
  · exact Nat.zero_le _

theorem CompareOp.length_code_le (op : CompareOp) : op.code.length ≤ 3 := by
  cases op <;> decide

mutual

theorem Expr.length_code_le (ρ : Env) (n : Nat) : (e : Expr) → (e.code ρ n).length ≤ 3 * e.tokens
  | .hole _ | .cutOff _ _ | .double _ => Nat.zero_le _
  | .uint _ | .string _ | .char _ => Nat.le_add_left 1 2
  | .load name => by
    have := ρ.length_address_le name
    simp only [Expr.code, Expr.tokens, List.length_append, List.length_singleton]
    omega
  | .assign name e => by
    have := ρ.length_address_le name
    have := e.length_code_le ρ n
    simp only [Expr.code, Expr.tokens, List.length_append, List.length_singleton]
    omega
  | .call name args => by
    have := args.length_code_le ρ n
    unfold Expr.code
    split
    · simp only [Expr.tokens, List.length_append, List.length_cons, List.length_nil]
      omega
    · exact Nat.zero_le _
  | .paren e | .cast e _ => by
    have := e.length_code_le ρ n
    simp only [Expr.code, Expr.tokens]
    omega
  | .neg signs e => by
    have := e.length_code_le ρ n
    have := effectiveSigns_le signs
    simp only [Expr.code, Expr.tokens, List.length_append, List.length_replicate]
    omega
  | .arith op lhs rhs => by
    have := lhs.length_code_le ρ n
    have := rhs.length_code_le ρ (n + lhs.texts.length)
    simp only [Expr.code, Expr.tokens, List.length_append, List.length_singleton]
    omega
  | .compare op lhs rhs => by
    have := lhs.length_code_le ρ n
    have := rhs.length_code_le ρ (n + lhs.texts.length)
    have := op.length_code_le
    simp only [Expr.code, Expr.tokens, List.length_append]
    omega

theorem Args.length_code_le (ρ : Env) (n : Nat) : (as : Args) → (as.code ρ n).length ≤ 3 * as.tokens
  | .close | .cutOff _ => Nat.zero_le _
  | .arg e rest => by
    have := e.length_code_le ρ n
    have := rest.length_code_le ρ (n + e.texts.length)
    simp only [Args.code, Args.tokens, List.length_append]
    omega

end

theorem Point.length_test_le (p : Point) : p.test.length ≤ 1 := by
  unfold Point.test
  split <;> decide

theorem Expr.length_genCond_le (p : Point) (e : Expr) : (e.genCond p).1.length ≤ 3 * e.tokens + 1 := by
  have := e.length_code_le p.env p.data.length
  have := (e.gen p).2.length_test_le
  simp only [Expr.genCond, Expr.gen, List.length_append] at this ⊢
  omega

theorem Expr.length_genStore_le (p : Point) (address : List Instr) (e : Expr) :
    (e.genStore p address).1.length ≤ address.length + 3 * e.tokens + 1 := by
  have := e.length_code_le (p.emit address).env (p.emit address).data.length
  simp only [Expr.genStore, Expr.gen, List.length_append, List.length_singleton]
  omega

theorem Decl.length_gen_le (p : Point) (d : Decl) : (d.gen p).1.length ≤ 3 * d.tokens := by
  unfold Decl.gen Decl.tokens
  cases d.init with
  | none => exact Nat.zero_le _
  | some e =>
    have := e.length_genStore_le (p.reserve d.name.name) (Slot.code 0 (.loc p.locals.length))
    have := Slot.length_code_le 0 (.loc p.locals.length)
    dsimp only [Option.elim_some]
    omega

theorem length_genRet_le (p : Point) (value : Option Expr) :
    (genRet p value).1.length ≤ 3 * (value.elim 0 Expr.tokens + 2) := by
  cases value with
  | none => exact Nat.le_add_left 1 5
  | some e =>
    have := e.length_genStore_le p [.withOperand .arga 0]
    simp only [genRet, List.length_append, List.length_singleton, Option.elim_some] at this ⊢
    omega

mutual

theorem Stmt.length_gen_le (p : Point) : (s : Stmt) → (s.gen p).1.length ≤ 3 * s.tokens
  | .decl d => d.length_gen_le p
  | .cond c => by
    have := c.length_gen_le p
    rw [Stmt.gen, Stmt.tokens]
    omega
  | .loop c body => by
    have := c.length_genCond_le p.jump
    have := body.length_gen_le (c.genCond p.jump).2.jump
    simp only [Stmt.gen, Stmt.tokens, loopCode, List.length_append, List.length_singleton]
    omega
  | .ret _ value => length_genRet_le p value
  | .block b => by
    have := b.length_gen_le p
    rw [Stmt.gen, Stmt.tokens]
    omega
  | .empty => Nat.zero_le _
  | .expr e => by
    have := e.length_code_le p.env p.data.length
    simp only [Stmt.gen, Expr.gen, Stmt.tokens]
    omega

theorem Block.length_gen_le (p : Point) : (b : Block) → (b.gen p).1.length ≤ 3 * b.tokens
  | .close | .cutOff _ => Nat.zero_le _
  | .stmt s rest => by
    have := s.length_gen_le p
    have := rest.length_gen_le (s.gen p).2
    simp only [Block.gen, Block.tokens, List.length_append]
    omega

theorem IfChain.length_gen_le (p : Point) : (c : IfChain) → (c.gen p).1.length ≤ 3 * c.tokens + 3
  | .mk c body otherwise => by
    have := c.length_genCond_le p
    have := body.length_gen_le (c.genCond p).2.jump
    have other := otherwise.length_gen_le (body.gen (c.genCond p).2.jump).2
    simp only [IfChain.gen, IfChain.tokens]
    cases eq : (otherwise.gen (body.gen (c.genCond p).2.jump).2).1 with
    | none =>
      simp only [ifCode, List.length_append, List.length_singleton]
      omega
    | some code =>
      have := other code eq
      simp only [ifCode, List.length_append, List.length_singleton]
      omega

theorem Else.length_gen_le (p : Point) : (o : Else) → ∀ code ∈ (o.gen p).1, code.length + 3 ≤ 3 * o.tokens
  | .absent => nofun
  | .block b => by
    intro code h
    cases h
    have := b.length_gen_le p.jump
    rw [Else.tokens]
    omega
  | .chain c => by
    intro code h
    cases h
    have := c.length_gen_le p.jump
    rw [Else.tokens]
    omega

end

theorem FnItem.length_body_le (p : Point) (f : FnItem) :
    ((f.body.gen p).1 ++ f.epilogue).length ≤ 3 * (Item.fn f).tokens := by
  have := f.body.length_gen_le p
  have : f.epilogue.length ≤ 1 := by
    unfold FnItem.epilogue
    split <;> decide
  rw [List.length_append, Item.tokens]
  omega

theorem Decl.length_globalCode_le (ρ : Env) (n : Nat) (d : Decl) :
    (d.globalCode ρ n).length ≤ 3 * d.tokens := by
  unfold Decl.globalCode Decl.tokens
  cases d.init with
  | none => exact Nat.zero_le _
  | some e =>
    have := e.length_code_le ρ n
    simp only [List.length_append, List.length_singleton, Option.elim_some]
    omega

/-! ### Variables and string literals -/

mutual

theorem Expr.length_texts_le : (e : Expr) → e.texts.length ≤ e.tokens
  | .hole _ | .uint _ | .double _ | .char _ | .load _ => Nat.zero_le _
  | .string _ => Nat.le_refl 1
  | .cutOff e _ => e.length_texts_le
  | .assign _ e | .paren e | .neg _ e | .cast e _ => Nat.le_add_right_of_le e.length_texts_le
  | .call _ as => Nat.le_add_right_of_le as.length_texts_le
  | .arith _ lhs rhs | .compare _ lhs rhs => by
    have := lhs.length_texts_le
    have := rhs.length_texts_le
    rw [Expr.texts, Expr.tokens, List.length_append]
    omega

theorem Args.length_texts_le : (as : Args) → as.texts.length ≤ as.tokens
  | .close | .cutOff _ => Nat.zero_le _
  | .arg e rest => by
    have := e.length_texts_le
    have := rest.length_texts_le
    rw [Args.texts, Args.tokens, List.length_append]
    omega

end

theorem Decl.length_texts_lt (d : Decl) : d.texts.length < d.tokens := by
  unfold Decl.texts Decl.tokens
  cases d.init with
  | none => exact Nat.zero_lt_succ 4
  | some e =>
    have := e.length_texts_le
    dsimp only [Option.elim_some]
    omega

theorem FnItem.length_scope (f : FnItem) : f.scope.length = f.params.length := by
  simp [scope]

mutual

/-- What a statement declares and what it has of string literals. -/
theorem Stmt.length_scope_le (σ : List String) :
    (s : Stmt) → (s.scope σ).length + s.texts.length ≤ σ.length + s.tokens
  | .decl d => by
    have := d.length_texts_lt
    simp only [Stmt.scope, Stmt.texts, Stmt.tokens, List.length_cons]
    omega
  | .cond c => Nat.le_trans (c.length_scope_le σ) (Nat.add_le_add_left (Nat.le_add_right _ _) _)
  | .loop e body => by
    have := e.length_texts_le
    have := body.length_scope_le σ
    simp only [Stmt.scope, Stmt.texts, Stmt.tokens, List.length_append]
    omega
  | .ret _ none | .empty => Nat.le_add_right _ _
  | .ret _ (some e) | .expr e => Nat.add_le_add_left (Nat.le_add_right_of_le e.length_texts_le) _
  | .block b => Nat.le_trans (b.length_scope_le σ) (Nat.add_le_add_left (Nat.le_add_right _ _) _)

theorem Block.length_scope_le (σ : List String) :
    (b : Block) → (b.scope σ).length + b.texts.length ≤ σ.length + b.tokens
  | .close | .cutOff _ => Nat.le_add_right _ _
  | .stmt s rest => by
    have := s.length_scope_le σ
    have := rest.length_scope_le (s.scope σ)
    simp only [Block.scope, Block.texts, Block.tokens, List.length_append]
    omega

theorem IfChain.length_scope_le (σ : List String) :
    (c : IfChain) → (c.scope σ).length + c.texts.length ≤ σ.length + c.tokens
  | .mk e body otherwise => by
    have := e.length_texts_le
    have := body.length_scope_le σ
    have := otherwise.length_scope_le (body.scope σ)
    simp only [IfChain.scope, IfChain.texts, IfChain.tokens, List.length_append]
    omega

theorem Else.length_scope_le (σ : List String) :
    (o : Else) → (o.scope σ).length + o.texts.length ≤ σ.length + o.tokens
  | .absent => Nat.le_add_right _ _
  | .block b => Nat.le_trans (b.length_scope_le σ) (Nat.add_le_add_left (Nat.le_add_right _ _) _)
  | .chain c => Nat.le_trans (c.length_scope_le σ) (Nat.add_le_add_left (Nat.le_add_right _ _) _)

end

end CZero
