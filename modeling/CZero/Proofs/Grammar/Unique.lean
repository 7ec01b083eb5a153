import CZero.Proofs.Grammar.Parser

/-!
# The parser finds what the grammar gives

What the grammar gives for a feed is what the parser returns for it, so a feed has at most one tree.
The proofs go along the recursion of the parser again. A construct that is not there is told from the
token that comes next: nothing that may start an expression ends a list or a block.
-/

namespace CZero

namespace Feed

variable {f r : Feed} {l : Lexeme}

/-! ### Reading one token -/

theorem after?_of_eats (h : f.Eats l r) : ∃ lt, f.after? l = some ⟨r, lt⟩ := by
  obtain ⟨t, rfl, eq⟩ := h
  exact ⟨_, if_pos eq⟩

theorem after?_of_lacks (h : f.Lacks l) : f.after? l = none := by
  cases f with
  | token t rest => exact if_neg h
  | done p => rfl
  | stuck d => rfl

theorem operator?_of_eats {α : Type} {pick : Punct → Option α} {op : α} {p : Punct}
    (h : f.Eats (.punct p) r) (hp : pick p = some op) : ∃ lt, f.operator? pick = some (op, ⟨r, lt⟩) := by
  obtain ⟨t, rfl, eq⟩ := h
  exact ⟨Nat.lt_succ_self _, by simp only [operator?, eq, hp]; rfl⟩

theorem operator?_of_lacks {α : Type} {pick : Punct → Option α}
    (h : ∀ p, (pick p).isSome → f.Lacks (.punct p)) : f.operator? pick = none := by
  cases f with
  | token t rest =>
    simp only [operator?]
    split
    · next p eq =>
      cases hp : pick p with
      | none => rfl
      | some op => exact absurd eq (h p (by rw [hp]; rfl))
    · rfl
  | done p => rfl
  | stuck d => rfl

theorem skip_of_eats {p : Punct} (h : f.Eats (.punct p) r) : ∃ le, f.skip p = ⟨r, le⟩ := by
  obtain ⟨lt, eq⟩ := after?_of_eats h
  rw [skip, eq]
  exact ⟨_, rfl⟩

theorem ident_of_eatsName {x : Ident} (h : f.EatsName x r) : ∃ le, f.ident = (.ok x, ⟨r, le⟩) := by
  obtain ⟨t, rfl, name, start⟩ := h
  obtain ⟨n, s⟩ := x
  cases start
  exact ⟨Nat.le_refl _, by simp only [ident, name]; rfl⟩

theorem Eats.lacks {l' : Lexeme} (h : f.Eats l r) (ne : l ≠ l') : f.Lacks l' := by
  obtain ⟨t, rfl, eq⟩ := h
  exact fun eq' => ne (eq.symm.trans eq')

theorem Lacks.isLive (h : f.Lacks l) : f.IsLive := by
  cases f with
  | token t rest => trivial
  | done p => trivial
  | stuck d => exact h.elim

theorem EatsName.eats {x : Ident} (h : f.EatsName x r) : f.Eats (.ident x.name) r := by
  obtain ⟨t, eq, name, -⟩ := h
  exact ⟨t, eq, name⟩

theorem IsLive.size_ne_zero (h : f.IsLive) : f.size ≠ 0 := by
  cases f with
  | token t rest => exact Nat.succ_ne_zero _
  | done p => exact Nat.one_ne_zero
  | stuck d => exact h.elim

end Feed

namespace Grammar

/-! ### First tokens -/

/-- Whether an expression can start with this. -/
def startsExpr : Lexeme → Bool
  | .ident _ | .uint _ | .double _ | .string _ | .char _ | .punct .minus | .punct .lparen => true
  | _ => false

/-- A feed whose first token can start an expression. -/
def Starts (f : Feed) : Prop :=
  ∃ l r, f.Eats l r ∧ startsExpr l

theorem IsPrimary.starts {f : Feed} {e : Expr} {r : Feed} (h : IsPrimary f e r) : Starts f := by
  cases h with
  | uint h | double h | string h | char h => exact ⟨_, _, h, rfl⟩
  | load h | assign h | callNone h | call h => exact ⟨_, _, h.eats, rfl⟩
  | paren h => exact ⟨_, _, h, rfl⟩

theorem IsPrimary.lacks_minus {f : Feed} {e : Expr} {r : Feed} (h : IsPrimary f e r) :
    f.Lacks (.punct .minus) := by
  cases h with
  | uint h | double h | string h | char h | paren h => exact h.lacks (by simp)
  | load h | assign h | callNone h | call h => exact h.eats.lacks (by simp)

theorem IsUnary.starts {f : Feed} {e : Expr} {r : Feed} (h : IsUnary f e r) : Starts f := by
  cases h with
  | neg h => exact ⟨_, _, h, rfl⟩
  | primary h => exact h.starts

theorem IsExpr.starts {f : Feed} {e : Expr} {r : Feed} (h : IsExpr f e r) : Starts f := by
  have cast {e r} (h : IsCast f e r) : Starts f := by
    cases h with
    | plain h | cast h => exact h.starts
  have sum {e r} (h : IsSum f e r) : Starts f := by
    obtain ⟨⟨h, -⟩, -⟩ := h
    exact cast h
  cases h with
  | sum h | compare h => exact sum h

theorem IsArgs.starts {f : Feed} {as : Args} {r : Feed} (h : IsArgs f as r) : Starts f := by
  cases h with
  | last h | more h => exact h.starts

theorem Starts.lacks {f : Feed} {l : Lexeme} (h : Starts f) (no : startsExpr l = false) : f.Lacks l := by
  obtain ⟨l', r, eats, yes⟩ := h
  refine eats.lacks fun eq => ?_
  rw [eq, no] at yes
  cases yes

open Parse

/-! ### Expressions -/

theorem followed_of_isLive {e : Expr} {f : Feed} (h : f.IsLive) : followed e f = e := by
  cases f with
  | token t rest => rfl
  | done p => rfl
  | stuck d => exact h.elim

theorem loaded_of_isLive {x : Ident} {f : Feed} (h : f.IsLive) : loaded x f = .load x := by
  cases f with
  | token t rest => rfl
  | done p => rfl
  | stuck d => exact h.elim

theorem compare_of_punct (op : CompareOp) : CompareOp.ofPunct? op.punct = some op := by
  cases op <;> rfl

theorem punct_of_compare {p : Punct} (h : (CompareOp.ofPunct? p).isSome) :
    ∃ op : CompareOp, p = op.punct := by
  cases p with
  | eq => exact ⟨.eq, rfl⟩
  | ne => exact ⟨.ne, rfl⟩
  | lt => exact ⟨.lt, rfl⟩
  | gt => exact ⟨.gt, rfl⟩
  | le => exact ⟨.le, rfl⟩
  | ge => exact ⟨.ge, rfl⟩
  | _ => cases h

theorem sum_of_punct {op : ArithOp} (h : op.isSum) : ArithOp.ofSum? op.punct = some op := by
  cases op with
  | add | sub => rfl
  | mul | div => cases h

theorem punct_of_sum {p : Punct} (h : (ArithOp.ofSum? p).isSome) :
    ∃ op : ArithOp, op.isSum ∧ p = op.punct := by
  cases p with
  | plus => exact ⟨.add, rfl, rfl⟩
  | minus => exact ⟨.sub, rfl, rfl⟩
  | _ => cases h

theorem term_of_punct {op : ArithOp} (h : !op.isSum) : ArithOp.ofTerm? op.punct = some op := by
  cases op with
  | mul | div => rfl
  | add | sub => cases h

theorem punct_of_term {p : Punct} (h : (ArithOp.ofTerm? p).isSome) :
    ∃ op : ArithOp, !op.isSum ∧ p = op.punct := by
  cases p with
  | star => exact ⟨.mul, rfl, rfl⟩
  | slash => exact ⟨.div, rfl, rfl⟩
  | _ => cases h

mutual

theorem IsExpr.parse {f : Feed} {e : Expr} {r : Feed} : IsExpr f e r → ∃ le, expr f = (e, ⟨r, le⟩)
  | .sum h no => by
    obtain ⟨le, eq⟩ := h.parse
    have none : r.operator? CompareOp.ofPunct? = none := Feed.operator?_of_lacks fun p hp => by
      obtain ⟨op, rfl⟩ := punct_of_compare hp
      exact no op
    rw [expr, eq]
    dsimp only
    rw [none]
    exact ⟨_, rfl⟩
  | .compare hl hop hr => by
    obtain ⟨le, eq⟩ := hl.parse
    obtain ⟨le', eq'⟩ := hr.parse
    obtain ⟨lt, eqop⟩ := Feed.operator?_of_eats hop (compare_of_punct _)
    rw [expr, eq]
    dsimp only
    rw [eqop]
    dsimp only
    rw [eq']
    exact ⟨_, rfl⟩

theorem IsSum.parse {f : Feed} {e : Expr} {r : Feed} : IsSum f e r → ∃ le, sum f = (e, ⟨r, le⟩)
  | .mk h more => by
    obtain ⟨le, eq⟩ := h.parse
    obtain ⟨le', eq'⟩ := more.parse
    rw [sum, eq]
    dsimp only
    rw [eq']
    exact ⟨_, rfl⟩

theorem IsSums.parse {lhs : Expr} {f : Feed} {e : Expr} {r : Feed} :
    IsSums lhs f e r → ∃ le, sumTail lhs f = (e, ⟨r, le⟩)
  | .last no => by
    have none : f.operator? ArithOp.ofSum? = none := Feed.operator?_of_lacks fun p hp => by
      obtain ⟨op, isSum, rfl⟩ := punct_of_sum hp
      exact no op isSum
    rw [sumTail, none]
    exact ⟨_, rfl⟩
  | .more isSum hop h more => by
    obtain ⟨lt, eqop⟩ := Feed.operator?_of_eats hop (sum_of_punct isSum)
    obtain ⟨le, eq⟩ := h.parse
    obtain ⟨le', eq'⟩ := more.parse
    rw [sumTail, eqop]
    dsimp only
    rw [eq]
    dsimp only
    rw [eq']
    exact ⟨_, rfl⟩

theorem IsTerm.parse {f : Feed} {e : Expr} {r : Feed} : IsTerm f e r → ∃ le, term f = (e, ⟨r, le⟩)
  | .mk h more => by
    obtain ⟨le, eq⟩ := h.parse
    obtain ⟨le', eq'⟩ := more.parse
    rw [term, eq]
    dsimp only
    rw [eq']
    exact ⟨_, rfl⟩

theorem IsTerms.parse {lhs : Expr} {f : Feed} {e : Expr} {r : Feed} :
    IsTerms lhs f e r → ∃ le, termTail lhs f = (e, ⟨r, le⟩)
  | .last no => by
    have none : f.operator? ArithOp.ofTerm? = none := Feed.operator?_of_lacks fun p hp => by
      obtain ⟨op, isTerm, rfl⟩ := punct_of_term hp
      exact no op isTerm
    rw [termTail, none]
    exact ⟨_, rfl⟩
  | .more isTerm hop h more => by
    obtain ⟨lt, eqop⟩ := Feed.operator?_of_eats hop (term_of_punct isTerm)
    obtain ⟨le, eq⟩ := h.parse
    obtain ⟨le', eq'⟩ := more.parse
    rw [termTail, eqop]
    dsimp only
    rw [eq]
    dsimp only
    rw [eq']
    exact ⟨_, rfl⟩

theorem IsCast.parse {f : Feed} {e : Expr} {r : Feed} : IsCast f e r → ∃ le, Parse.cast f = (e, ⟨r, le⟩)
  | .plain h no => by
    obtain ⟨le, eq⟩ := h.parse
    rw [Parse.cast, eq]
    dsimp only
    rw [Feed.after?_of_lacks no, followed_of_isLive no.isLive]
    exact ⟨_, rfl⟩
  | .cast h as name live => by
    obtain ⟨le, eq⟩ := h.parse
    obtain ⟨lt, eq'⟩ := Feed.after?_of_eats as
    obtain ⟨le', eqname⟩ := Feed.ident_of_eatsName name
    rw [Parse.cast, eq]
    dsimp only
    rw [eq']
    dsimp only
    rw [eqname]
    dsimp only
    rw [followed_of_isLive live]
    exact ⟨_, rfl⟩

theorem IsUnary.parse {f : Feed} {e : Expr} {r : Feed} : IsUnary f e r → ∃ le, unary f = (e, ⟨r, le⟩)
  | .neg minus h => by
    obtain ⟨lt, eq⟩ := Feed.after?_of_eats minus
    obtain ⟨le, eq'⟩ := h.parse
    rw [unary, eq]
    dsimp only
    rw [eq']
    exact ⟨_, rfl⟩
  | .primary h => by
    obtain ⟨le, eq⟩ := h.parse
    rw [unary, Feed.after?_of_lacks h.lacks_minus]
    exact ⟨le, eq⟩

theorem IsPrimary.parse {f : Feed} {e : Expr} {r : Feed} :
    IsPrimary f e r → ∃ le, primary f = (e, ⟨r, le⟩)
  | .uint h | .double h | .string h | .char h => by
    obtain ⟨t, rfl, eq⟩ := h
    rw [primary.eq_def]
    dsimp only
    rw [eq]
    dsimp only
    exact ⟨_, rfl⟩
  | .load h noCall noAssign => by
    obtain ⟨t, rfl, name, start⟩ := h
    rw [primary.eq_def]
    dsimp only
    rw [name]
    dsimp only
    rw [Feed.after?_of_lacks noCall]
    dsimp only
    rw [Feed.after?_of_lacks noAssign]
    dsimp only
    rw [loaded_of_isLive noCall.isLive, start]
    exact ⟨_, rfl⟩
  | .assign h hassign he => by
    obtain ⟨t, rfl, name, start⟩ := h
    obtain ⟨lt, eq⟩ := Feed.after?_of_eats hassign
    obtain ⟨le, eq'⟩ := he.parse
    rw [primary.eq_def]
    dsimp only
    rw [name]
    dsimp only
    rw [Feed.after?_of_lacks (hassign.lacks (by decide))]
    dsimp only
    rw [eq]
    dsimp only
    rw [eq', start]
    exact ⟨_, rfl⟩
  | .callNone h hopen hclose => by
    obtain ⟨t, rfl, name, start⟩ := h
    obtain ⟨lt, eq⟩ := Feed.after?_of_eats hopen
    obtain ⟨lt', eq'⟩ := Feed.after?_of_eats hclose
    rw [primary.eq_def]
    dsimp only
    rw [name]
    dsimp only
    rw [eq]
    dsimp only
    rw [eq', start]
    exact ⟨_, rfl⟩
  | .call h hopen has => by
    obtain ⟨t, rfl, name, start⟩ := h
    obtain ⟨lt, eq⟩ := Feed.after?_of_eats hopen
    obtain ⟨le, eq'⟩ := has.parse
    rw [primary.eq_def]
    dsimp only
    rw [name]
    dsimp only
    rw [eq]
    dsimp only
    rw [Feed.after?_of_lacks (has.starts.lacks rfl)]
    dsimp only
    rw [eq', start]
    exact ⟨_, rfl⟩
  | .paren hopen he hclose => by
    obtain ⟨t, rfl, eq⟩ := hopen
    obtain ⟨le, eq'⟩ := he.parse
    obtain ⟨lt, eqclose⟩ := Feed.after?_of_eats hclose
    rw [primary.eq_def]
    dsimp only
    rw [eq]
    dsimp only
    rw [if_pos rfl, eq']
    dsimp only
    rw [eqclose]
    exact ⟨_, rfl⟩

theorem IsArgs.parse {f : Feed} {as : Args} {r : Feed} : IsArgs f as r → ∃ le, args f = (as, ⟨r, le⟩)
  | .last he hclose => by
    obtain ⟨le, eq⟩ := he.parse
    obtain ⟨lt, eq'⟩ := Feed.after?_of_eats hclose
    rw [args, eq]
    dsimp only
    rw [Feed.after?_of_lacks (hclose.lacks (by decide))]
    dsimp only
    rw [eq']
    exact ⟨_, rfl⟩
  | .more he hcomma has => by
    obtain ⟨le, eq⟩ := he.parse
    obtain ⟨lt, eq'⟩ := Feed.after?_of_eats hcomma
    obtain ⟨le', eqas⟩ := has.parse
    rw [args, eq]
    dsimp only
    rw [eq']
    dsimp only
    rw [eqas]
    exact ⟨_, rfl⟩

end

/-! ### Declarations and statements -/

theorem IsInit.parse {isConst : Bool} {f : Feed} {init : Option Expr} {r : Feed}
    (h : IsInit isConst f init r) : ∃ le, initial isConst f = (init, ⟨r, le⟩) := by
  cases h with
  | value hassign he =>
    obtain ⟨lt, eq⟩ := Feed.after?_of_eats hassign
    obtain ⟨le, eq'⟩ := he.parse
    rw [initial, eq]
    dsimp only
    rw [eq']
    exact ⟨_, rfl⟩
  | none no =>
    rw [initial, Feed.after?_of_lacks no]
    exact ⟨_, rfl⟩

theorem IsDecl.parse {isConst : Bool} {f : Feed} {d : Decl} {r : Feed} (h : IsDecl isConst f d r) :
    ∃ le, decl isConst f = (.ok d, ⟨r, le⟩) := by
  obtain ⟨hname, hcolon, htype, hinit, hsemicolon⟩ := h
  obtain ⟨_, name⟩ := Feed.ident_of_eatsName hname
  obtain ⟨_, colon⟩ := Feed.skip_of_eats hcolon
  obtain ⟨_, type⟩ := Feed.ident_of_eatsName htype
  obtain ⟨_, init⟩ := hinit.parse
  obtain ⟨_, semicolon⟩ := Feed.after?_of_eats hsemicolon
  rw [decl, name]
  dsimp only
  rw [colon]
  dsimp only
  rw [type]
  dsimp only
  rw [init]
  dsimp only
  rw [semicolon]
  exact ⟨_, rfl⟩

theorem IsBlock.eats {f : Feed} {b : Block} {r : Feed} (h : IsBlock f b r) :
    ∃ g, f.Eats (.punct .lbrace) g := by
  cases h with
  | mk h => exact ⟨_, h⟩

theorem IsStmt.lacks_close {f : Feed} {s : Stmt} {r : Feed} (h : IsStmt f s r) :
    f.Lacks (.punct .rbrace) := by
  cases h with
  | letDecl h | constDecl h | cond h | loop h | empty h => exact h.lacks (by simp)
  | ret h | retValue h => exact fun eq => by cases h.symm.trans eq
  | block h =>
    obtain ⟨g, h⟩ := h.eats
    exact h.lacks (by simp)
  | expr h => exact h.starts.lacks rfl

/-- An expression where a statement is wanted is a statement. -/
theorem stmt_of_starts {f : Feed} (h : Starts f) : stmt f = exprStmt f := by
  obtain ⟨l, r, ⟨t, rfl, eq⟩, yes⟩ := h
  rw [stmt.eq_def]
  dsimp only
  rw [eq]
  cases l with
  | ident | uint | double | string | char => rfl
  | punct p =>
    cases p with
    | minus | lparen => rfl
    | _ => cases yes
  | keyword | endOfFile => cases yes

mutual

theorem IsStmt.parse {f : Feed} {s : Stmt} {r : Feed} : IsStmt f s r → ∃ le, stmt f = (s, ⟨r, le⟩)
  | .letDecl h hd | .constDecl h hd => by
    obtain ⟨t, rfl, eq⟩ := h
    obtain ⟨_, eq'⟩ := hd.parse
    rw [stmt.eq_def]
    dsimp only
    rw [eq]
    dsimp only
    rw [eq']
    exact ⟨_, rfl⟩
  | .cond h hc => by
    obtain ⟨t, rfl, eq⟩ := h
    obtain ⟨_, eq'⟩ := hc.parse
    rw [stmt.eq_def]
    dsimp only
    rw [eq]
    dsimp only
    rw [eq']
    exact ⟨_, rfl⟩
  | .loop h he hb => by
    obtain ⟨t, rfl, eq⟩ := h
    obtain ⟨_, eq'⟩ := he.parse
    obtain ⟨_, eqb⟩ := hb.parse
    rw [stmt.eq_def]
    dsimp only
    rw [eq]
    dsimp only
    rw [eq']
    dsimp only
    rw [eqb]
    exact ⟨_, rfl⟩
  | .ret eq h => by
    obtain ⟨_, eq'⟩ := Feed.after?_of_eats h
    rw [stmt.eq_def]
    dsimp only
    rw [eq]
    dsimp only
    rw [result, eq']
    exact ⟨_, rfl⟩
  | .retValue eq he h => by
    obtain ⟨_, eq'⟩ := he.parse
    obtain ⟨_, eqs⟩ := Feed.skip_of_eats h
    rw [stmt.eq_def]
    dsimp only
    rw [eq]
    dsimp only
    rw [result, Feed.after?_of_lacks (he.starts.lacks rfl)]
    dsimp only
    rw [eq']
    dsimp only
    rw [eqs]
    exact ⟨_, rfl⟩
  | .block (.mk h hb) => by
    obtain ⟨t, rfl, eq⟩ := h
    obtain ⟨_, eq'⟩ := hb.parse
    rw [stmt.eq_def]
    dsimp only
    rw [eq]
    dsimp only
    rw [if_pos rfl, eq']
    exact ⟨_, rfl⟩
  | .empty h => by
    obtain ⟨t, rfl, eq⟩ := h
    rw [stmt.eq_def]
    dsimp only
    rw [eq]
    dsimp only
    rw [if_neg (by decide), if_pos rfl]
    exact ⟨_, rfl⟩
  | .expr he h => by
    obtain ⟨_, eq⟩ := he.parse
    obtain ⟨_, eq'⟩ := Feed.skip_of_eats h
    rw [stmt_of_starts he.starts, exprStmt, eq]
    dsimp only
    rw [eq']
    exact ⟨_, rfl⟩

theorem IsBlock.parse {f : Feed} {b : Block} {r : Feed} : IsBlock f b r → ∃ le, block f = (b, ⟨r, le⟩)
  | .mk h hb => by
    obtain ⟨_, eq⟩ := Feed.after?_of_eats h
    obtain ⟨_, eq'⟩ := hb.parse
    rw [block, eq]
    dsimp only
    rw [eq']
    exact ⟨_, rfl⟩

theorem IsBody.parse {f : Feed} {b : Block} {r : Feed} : IsBody f b r → ∃ le, body f = (b, ⟨r, le⟩)
  | .close h => by
    obtain ⟨_, eq⟩ := Feed.after?_of_eats h
    rw [body, eq]
    exact ⟨_, rfl⟩
  | .stmt hs hb => by
    obtain ⟨_, eq⟩ := hs.parse
    obtain ⟨_, eq'⟩ := hb.parse
    rw [body, Feed.after?_of_lacks hs.lacks_close]
    dsimp only
    rw [if_neg hs.lacks_close.isLive.size_ne_zero, eq]
    dsimp only
    rw [eq']
    exact ⟨_, rfl⟩

theorem IsIf.parse {f : Feed} {c : IfChain} {r : Feed} : IsIf f c r → ∃ le, ifChain f = (c, ⟨r, le⟩)
  | .mk he hb ho => by
    obtain ⟨_, eq⟩ := he.parse
    obtain ⟨_, eqb⟩ := hb.parse
    obtain ⟨_, eqo⟩ := ho.parse
    rw [ifChain, eq]
    dsimp only
    rw [eqb]
    dsimp only
    rw [eqo]
    exact ⟨_, rfl⟩

theorem IsElse.parse {f : Feed} {o : Else} {r : Feed} : IsElse f o r → ∃ le, otherwise f = (o, ⟨r, le⟩)
  | .absent no => by
    rw [otherwise, Feed.after?_of_lacks no]
    exact ⟨_, rfl⟩
  | .block h hb => by
    obtain ⟨_, eq⟩ := Feed.after?_of_eats h
    obtain ⟨_, eq'⟩ := hb.parse
    obtain ⟨_, brace⟩ := hb.eats
    rw [otherwise, eq]
    dsimp only
    rw [Feed.after?_of_lacks (brace.lacks (by simp))]
    dsimp only
    rw [eq']
    exact ⟨_, rfl⟩
  | .chain h hif hc => by
    obtain ⟨_, eq⟩ := Feed.after?_of_eats h
    obtain ⟨_, eqif⟩ := Feed.after?_of_eats hif
    obtain ⟨_, eq'⟩ := hc.parse
    rw [otherwise, eq]
    dsimp only
    rw [eqif]
    dsimp only
    rw [eq']
    exact ⟨_, rfl⟩

end

/-! ### Programs -/

theorem IsParam.parse {f : Feed} {p : Param} {r : Feed} (h : IsParam f p r) :
    ∃ le, param f = (.ok p, ⟨r, le⟩) := by
  cases h with
  | «variable» hname hcolon htype =>
    obtain ⟨_, name⟩ := Feed.ident_of_eatsName hname
    obtain ⟨_, colon⟩ := Feed.skip_of_eats hcolon
    obtain ⟨_, type⟩ := Feed.ident_of_eatsName htype
    rw [param, constness, Feed.after?_of_lacks (hname.eats.lacks (by simp))]
    dsimp only [Feed.Within.all]
    rw [name]
    dsimp only
    rw [colon]
    dsimp only
    rw [type]
    exact ⟨_, rfl⟩
  | const hconst hname hcolon htype =>
    obtain ⟨_, eq⟩ := Feed.after?_of_eats hconst
    obtain ⟨_, name⟩ := Feed.ident_of_eatsName hname
    obtain ⟨_, colon⟩ := Feed.skip_of_eats hcolon
    obtain ⟨_, type⟩ := Feed.ident_of_eatsName htype
    rw [param, constness, eq]
    dsimp only [Feed.After.within, Feed.Tail.alone]
    rw [name]
    dsimp only
    rw [colon]
    dsimp only
    rw [type]
    exact ⟨_, rfl⟩

theorem IsParams.parse {f : Feed} {ps : List Param} {r : Feed} (h : IsParams f ps r) :
    ∃ le, params f = (ps, ⟨r, le⟩) := by
  induction h with
  | last hp hclose =>
    obtain ⟨_, eq⟩ := hp.parse
    obtain ⟨_, eq'⟩ := Feed.skip_of_eats hclose
    rw [params, eq]
    dsimp only
    rw [Feed.after?_of_lacks (hclose.lacks (by simp))]
    dsimp only
    rw [eq']
    exact ⟨_, rfl⟩
  | more hp hcomma _ ih =>
    obtain ⟨_, eq⟩ := hp.parse
    obtain ⟨_, comma⟩ := Feed.after?_of_eats hcomma
    obtain ⟨_, eq'⟩ := ih
    rw [params, eq]
    dsimp only
    rw [comma]
    dsimp only
    rw [eq']
    exact ⟨_, rfl⟩

theorem IsParam.lacks_close {f : Feed} {p : Param} {r : Feed} (h : IsParam f p r) :
    f.Lacks (.punct .rparen) := by
  cases h with
  | «variable» h => exact h.eats.lacks (by simp)
  | const h => exact h.lacks (by simp)

theorem IsParamList.parse {f : Feed} {ps : List Param} {r : Feed} (h : IsParamList f ps r) :
    ∃ le, paramList f = (ps, ⟨r, le⟩) := by
  cases h with
  | none h =>
    obtain ⟨_, eq⟩ := Feed.after?_of_eats h
    rw [paramList, eq]
    exact ⟨_, rfl⟩
  | some h =>
    have no : f.Lacks (.punct .rparen) := by
      cases h with
      | last hp | more hp => exact hp.lacks_close
    rw [paramList, Feed.after?_of_lacks no]
    exact h.parse

theorem IsItem.parse {f : Feed} {i : Item} {r : Feed} (h : IsItem f i r) :
    ∃ t k g, f = .token t g ∧ t.lexeme = .keyword k ∧ ∃ le, item t k g = (.ok i, ⟨r, le⟩) := by
  cases h with
  | fn hfn hname hopen hps harrow htype hb =>
    obtain ⟨t, rfl, eq⟩ := hfn
    obtain ⟨_, name⟩ := Feed.ident_of_eatsName hname
    obtain ⟨_, «open»⟩ := Feed.after?_of_eats hopen
    obtain ⟨_, params⟩ := hps.parse
    obtain ⟨_, arrow⟩ := Feed.skip_of_eats harrow
    obtain ⟨_, type⟩ := Feed.ident_of_eatsName htype
    obtain ⟨_, body⟩ := hb.parse
    refine ⟨t, .fnKw, _, rfl, eq, ?_⟩
    rw [item, fnItem, name]
    dsimp only
    rw [«open»]
    dsimp only
    rw [params]
    dsimp only
    rw [arrow]
    dsimp only
    rw [type]
    dsimp only
    rw [body]
    exact ⟨_, rfl⟩
  | letDecl h hd =>
    obtain ⟨t, rfl, eq⟩ := h
    obtain ⟨le, eq'⟩ := hd.parse
    exact ⟨t, .letKw, _, rfl, eq, le, by rw [item, eq']; rfl⟩
  | constDecl h hd =>
    obtain ⟨t, rfl, eq⟩ := h
    obtain ⟨le, eq'⟩ := hd.parse
    exact ⟨t, .constKw, _, rfl, eq, le, by rw [item, eq']; rfl⟩

/-- A feed that the grammar gives a program for has that program as its tree. -/
theorem IsProgram.parse {f : Feed} {p : Program} (h : IsProgram f p) : Program.ofFeed f = p := by
  induction h with
  | done => rw [Program.ofFeed, items.eq_def]
  | item hi _ ih =>
    obtain ⟨t, k, g, rfl, eq, le, eq'⟩ := hi.parse
    rw [Program.ofFeed, items.eq_def]
    dsimp only
    rw [eq]
    dsimp only
    rw [eq', ← ih]
    rfl

end Grammar

end CZero
