import CZero.Proofs.Grammar.Basic
import Mathlib.Algebra.Order.Ring.Nat

/-!
# How long a source has to be

The number of tokens that a tree takes, counted from below: commas and closing parentheses of calls are
counted together. A source has at least as many characters as its tree has tokens, so bounds on a tree
are bounds on its source.
-/

namespace CZero

mutual

/-- The tokens of an expression. -/
def Expr.tokens : Expr → Nat
  | .hole _ => 0
  | .cutOff e _ => e.tokens
  | .uint _ | .double _ | .string _ | .char _ | .load _ => 1
  | .assign _ e | .paren e | .cast e _ => e.tokens + 2
  | .call _ as => as.tokens + 2
  | .neg signs e => e.tokens + signs
  | .arith _ lhs rhs | .compare _ lhs rhs => lhs.tokens + rhs.tokens + 1

/-- The tokens of arguments, each with the comma or parenthesis behind it. -/
def Args.tokens : Args → Nat
  | .close | .cutOff _ => 0
  | .arg e rest => e.tokens + rest.tokens + 1

end

theorem Expr.tokens_negate (e : Expr) : e.negate.tokens = e.tokens + 1 := by
  cases e <;> rfl

/-- The tokens of a declaration. -/
def Decl.tokens (d : Decl) : Nat :=
  d.init.elim 0 (fun e => e.tokens + 1) + 5

mutual

/-- The tokens of a statement. -/
def Stmt.tokens : Stmt → Nat
  | .decl d => d.tokens
  | .cond c => c.tokens + 1
  | .loop e b => e.tokens + b.tokens + 2
  | .ret _ value => value.elim 0 Expr.tokens + 2
  | .block b => b.tokens + 1
  | .empty => 1
  | .expr e => e.tokens + 1

/-- The tokens of a block behind its opening brace. -/
def Block.tokens : Block → Nat
  | .close => 1
  | .cutOff _ => 0
  | .stmt s rest => s.tokens + rest.tokens

/-- The tokens of a conditional statement behind its keyword. -/
def IfChain.tokens : IfChain → Nat
  | .mk e b o => e.tokens + b.tokens + o.tokens + 1

/-- The tokens of what follows a conditional block. -/
def Else.tokens : Else → Nat
  | .absent => 0
  | .block b => b.tokens + 2
  | .chain c => c.tokens + 2

end

/-- The tokens of a part of a program. -/
def Item.tokens : Item → Nat
  | .fn f => 4 * f.params.length + f.body.tokens + 6
  | .decl d => d.tokens

/-- The tokens of a program. -/
def Program.tokens (p : Program) : Nat :=
  (p.items.map Item.tokens).sum

theorem Program.tokens_part_le {p : Program} {before after : List Item} {i : Item}
    (items : p.items = before ++ i :: after) : i.tokens ≤ p.tokens := by
  rw [Program.tokens, items, List.map_append, List.sum_append, List.map_cons, List.sum_cons]
  omega

namespace Feed

theorem Eats.size {f r : Feed} {l : Lexeme} (h : f.Eats l r) : f.size = r.size + 1 := by
  obtain ⟨t, rfl, -⟩ := h
  rfl

theorem EatsName.size {f r : Feed} {x : Ident} (h : f.EatsName x r) : f.size = r.size + 1 := by
  obtain ⟨t, rfl, -, -⟩ := h
  rfl

theorem size_ofCursor_le (c : Cursor) : (ofCursor c).size ≤ c.rest.length + 1 := by
  rw [ofCursor]
  split
  · exact Nat.zero_le _
  · next t after h =>
    split
    · exact Nat.le_add_left _ _
    · next ne =>
      have shorter := Cursor.scan_shorter h ne
      have ih := size_ofCursor_le after
      rw [size_token]
      omega
termination_by c.rest.length

/-- A source has at most one token for each character, and its end. -/
theorem size_ofSource_le (source : String) : (ofSource source).size ≤ source.length + 1 := by
  have le := size_ofCursor_le (.ofSource source)
  rwa [Cursor.ofSource, String.length_toList] at le

end Feed

namespace Grammar

mutual

theorem IsExpr.tokens_le {f : Feed} {e : Expr} {r : Feed} : IsExpr f e r → e.tokens + r.size ≤ f.size
  | .sum h _ => h.tokens_le
  | .compare hl hop hr => by
    have := hl.tokens_le
    have := hop.size
    have := hr.tokens_le
    rw [Expr.tokens]
    omega

theorem IsSum.tokens_le {f : Feed} {e : Expr} {r : Feed} : IsSum f e r → e.tokens + r.size ≤ f.size
  | .mk h more => by
    have := h.tokens_le
    have := more.tokens_le
    omega

theorem IsSums.tokens_le {lhs : Expr} {f : Feed} {e : Expr} {r : Feed} :
    IsSums lhs f e r → e.tokens + r.size ≤ lhs.tokens + f.size
  | .last _ => Nat.le_refl _
  | .more _ hop h more => by
    have := hop.size
    have := h.tokens_le
    have := more.tokens_le
    rw [Expr.tokens] at this
    omega

theorem IsTerm.tokens_le {f : Feed} {e : Expr} {r : Feed} : IsTerm f e r → e.tokens + r.size ≤ f.size
  | .mk h more => by
    have := h.tokens_le
    have := more.tokens_le
    omega

theorem IsTerms.tokens_le {lhs : Expr} {f : Feed} {e : Expr} {r : Feed} :
    IsTerms lhs f e r → e.tokens + r.size ≤ lhs.tokens + f.size
  | .last _ => Nat.le_refl _
  | .more _ hop h more => by
    have := hop.size
    have := h.tokens_le
    have := more.tokens_le
    rw [Expr.tokens] at this
    omega

theorem IsCast.tokens_le {f : Feed} {e : Expr} {r : Feed} : IsCast f e r → e.tokens + r.size ≤ f.size
  | .plain h _ => h.tokens_le
  | .cast h as name _ => by
    have := h.tokens_le
    have := as.size
    have := name.size
    rw [Expr.tokens]
    omega

theorem IsUnary.tokens_le {f : Feed} {e : Expr} {r : Feed} : IsUnary f e r → e.tokens + r.size ≤ f.size
  | .neg minus h => by
    have := minus.size
    have := h.tokens_le
    rw [Expr.tokens_negate]
    omega
  | .primary h => h.tokens_le

theorem IsPrimary.tokens_le {f : Feed} {e : Expr} {r : Feed} :
    IsPrimary f e r → e.tokens + r.size ≤ f.size
  | .uint h | .double h | .string h | .char h | .load h _ _ => by
    rw [Expr.tokens, h.size]
    omega
  | .assign h eats he => by
    have := h.size
    have := eats.size
    have := he.tokens_le
    rw [Expr.tokens]
    omega
  | .callNone h left right => by
    have := h.size
    have := left.size
    have := right.size
    rw [Expr.tokens, Args.tokens]
    omega
  | .call h left has => by
    have := h.size
    have := left.size
    have := has.tokens_le
    rw [Expr.tokens]
    omega
  | .paren left he right => by
    have := left.size
    have := he.tokens_le
    have := right.size
    rw [Expr.tokens]
    omega

theorem IsArgs.tokens_le {f : Feed} {as : Args} {r : Feed} : IsArgs f as r → as.tokens + r.size ≤ f.size
  | .last he right => by
    have := he.tokens_le
    have := right.size
    rw [Args.tokens, Args.tokens]
    omega
  | .more he comma has => by
    have := he.tokens_le
    have := comma.size
    have := has.tokens_le
    rw [Args.tokens]
    omega

end

theorem IsDecl.tokens_le {isConst : Bool} {f : Feed} {d : Decl} {r : Feed} (h : IsDecl isConst f d r) :
    d.tokens + r.size ≤ f.size + 1 := by
  obtain ⟨name, colon, type, init, semicolon⟩ := h
  have := name.size
  have := colon.size
  have := type.size
  have := semicolon.size
  cases init with
  | value eats he =>
    have := eats.size
    have := he.tokens_le
    simp only [Decl.tokens, Option.elim_some]
    omega
  | none =>
    simp only [Decl.tokens, Option.elim_none]
    omega

mutual

theorem IsStmt.tokens_le {f : Feed} {s : Stmt} {r : Feed} : IsStmt f s r → s.tokens + r.size ≤ f.size
  | .letDecl h hd | .constDecl h hd => by
    have := h.size
    have := hd.tokens_le
    rw [Stmt.tokens]
    omega
  | .cond h hc => by
    have := h.size
    have := hc.tokens_le
    rw [Stmt.tokens]
    omega
  | .loop h he hb => by
    have := h.size
    have := he.tokens_le
    have := hb.tokens_le
    rw [Stmt.tokens]
    omega
  | .ret _ h => by
    have := h.size
    rw [Stmt.tokens, Feed.size_token, Option.elim_none]
    omega
  | .retValue _ he h => by
    have := he.tokens_le
    have := h.size
    rw [Stmt.tokens, Feed.size_token, Option.elim_some]
    omega
  | .block h => by
    have := h.tokens_le
    rw [Stmt.tokens]
    omega
  | .empty h => by
    have := h.size
    rw [Stmt.tokens]
    omega
  | .expr he h => by
    have := he.tokens_le
    have := h.size
    rw [Stmt.tokens]
    omega

theorem IsBlock.tokens_le {f : Feed} {b : Block} {r : Feed} :
    IsBlock f b r → b.tokens + r.size + 1 ≤ f.size
  | .mk h hb => by
    have := h.size
    have := hb.tokens_le
    omega

theorem IsBody.tokens_le {f : Feed} {b : Block} {r : Feed} : IsBody f b r → b.tokens + r.size ≤ f.size
  | .close h => by
    have := h.size
    rw [Block.tokens]
    omega
  | .stmt hs hb => by
    have := hs.tokens_le
    have := hb.tokens_le
    rw [Block.tokens]
    omega

theorem IsIf.tokens_le {f : Feed} {c : IfChain} {r : Feed} : IsIf f c r → c.tokens + r.size ≤ f.size
  | .mk he hb ho => by
    have := he.tokens_le
    have := hb.tokens_le
    have := ho.tokens_le
    rw [IfChain.tokens]
    omega

theorem IsElse.tokens_le {f : Feed} {o : Else} {r : Feed} : IsElse f o r → o.tokens + r.size ≤ f.size
  | .absent _ => by
    rw [Else.tokens]
    omega
  | .block h hb => by
    have := h.size
    have := hb.tokens_le
    rw [Else.tokens]
    omega
  | .chain h hif hc => by
    have := h.size
    have := hif.size
    have := hc.tokens_le
    rw [Else.tokens]
    omega

end

theorem IsParam.size {f : Feed} {p : Param} {r : Feed} (h : IsParam f p r) : r.size + 3 ≤ f.size := by
  cases h with
  | «variable» name colon type =>
    have := name.size
    have := colon.size
    have := type.size
    omega
  | const keyword name colon type =>
    have := keyword.size
    have := name.size
    have := colon.size
    have := type.size
    omega

theorem IsParams.size {f : Feed} {ps : List Param} {r : Feed} (h : IsParams f ps r) :
    4 * ps.length + r.size ≤ f.size := by
  induction h with
  | last hp right =>
    have := hp.size
    have := right.size
    rw [List.length_singleton]
    omega
  | more hp comma _ ih =>
    have := hp.size
    have := comma.size
    rw [List.length_cons]
    omega

theorem IsParamList.size {f : Feed} {ps : List Param} {r : Feed} (h : IsParamList f ps r) :
    4 * ps.length + r.size ≤ f.size := by
  cases h with
  | none right =>
    have := right.size
    rw [List.length_nil]
    omega
  | some h => exact h.size

theorem IsItem.tokens_le {f : Feed} {i : Item} {r : Feed} (h : IsItem f i r) :
    i.tokens + r.size ≤ f.size := by
  cases h with
  | fn keyword name left params arrow type body =>
    have := keyword.size
    have := name.size
    have := left.size
    have := params.size
    have := arrow.size
    have := type.size
    have := body.tokens_le
    simp only [Item.tokens]
    omega
  | letDecl h hd | constDecl h hd =>
    have := h.size
    have := hd.tokens_le
    rw [Item.tokens]
    omega

theorem IsProgram.tokens_lt {f : Feed} {p : Program} (h : IsProgram f p) : p.tokens < f.size := by
  induction h with
  | done => exact Nat.zero_lt_one
  | item hi _ ih =>
    have := hi.tokens_le
    rw [Program.tokens, List.map_cons, List.sum_cons]
    rw [Program.tokens] at ih
    omega

/-- A source is at least as long as its tree. -/
theorem tokens_le_length {source : String} {p : Program} (h : IsProgram (.ofSource source) p) :
    p.tokens ≤ source.length := by
  have := h.tokens_lt
  have := Feed.size_ofSource_le source
  omega

end Grammar

end CZero
