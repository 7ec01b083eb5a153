import CZero.Proofs.Grammar.Basic

/-!
# The parser follows the grammar

A tree without holes that the parser returns is one that the grammar gives, and the feed it leaves is
what follows. The proofs go along the recursion of the parser, and end for the same reason.
-/

namespace CZero

/-! ### Trees without holes -/

mutual

/-- An expression was read to its end. -/
def Expr.IsWhole : Expr → Prop
  | .hole _ | .cutOff _ _ => False
  | .uint _ | .double _ | .string _ | .char _ | .load _ => True
  | .assign _ e | .paren e | .neg _ e | .cast e _ => e.IsWhole
  | .call _ as => as.IsWhole
  | .arith _ lhs rhs | .compare _ lhs rhs => lhs.IsWhole ∧ rhs.IsWhole

/-- Arguments were read to their end. -/
def Args.IsWhole : Args → Prop
  | .close => True
  | .cutOff _ => False
  | .arg e rest => e.IsWhole ∧ rest.IsWhole

end

@[simp] theorem Expr.isWhole_negate (e : Expr) : e.negate.IsWhole ↔ e.IsWhole := by
  cases e <;> exact Iff.rfl

/-- A declaration was read to its end. -/
def Decl.IsWhole (d : Decl) : Prop :=
  d.cutOff = none ∧ ∀ e ∈ d.init, e.IsWhole

mutual

/-- A statement was read to its end. -/
def Stmt.IsWhole : Stmt → Prop
  | .decl d => d.IsWhole
  | .cond c => c.IsWhole
  | .loop e b => e.IsWhole ∧ b.IsWhole
  | .ret _ value => ∀ e ∈ value, e.IsWhole
  | .block b => b.IsWhole
  | .empty => True
  | .expr e => e.IsWhole

/-- A block was read to its end. -/
def Block.IsWhole : Block → Prop
  | .close => True
  | .cutOff _ => False
  | .stmt s rest => s.IsWhole ∧ rest.IsWhole

/-- A conditional statement was read to its end. -/
def IfChain.IsWhole : IfChain → Prop
  | .mk e b o => e.IsWhole ∧ b.IsWhole ∧ o.IsWhole

/-- What follows a conditional block was read to its end. -/
def Else.IsWhole : Else → Prop
  | .absent => True
  | .block b => b.IsWhole
  | .chain c => c.IsWhole

end

/-- A part of a program was read to its end. -/
def Item.IsWhole : Item → Prop
  | .fn f => (∃ type, f.type = .ok type) ∧ f.body.IsWhole
  | .decl d => d.IsWhole

/-- A program was read to the end of its source. -/
def Program.IsWhole (p : Program) : Prop :=
  (∀ i ∈ p.items, i.IsWhole) ∧ ∃ position, p.finish = .ok position

namespace Feed

variable {f : Feed} {l : Lexeme}

/-! ### Reading one token -/

theorem eats_of_after? {r : f.Tail} (h : f.after? l = some r) : f.Eats l r.1 := by
  cases f with
  | token t rest =>
    simp only [after?] at h
    split at h
    · cases h
      exact ⟨t, rfl, ‹_›⟩
    · cases h
  | done p => cases h
  | stuck d => cases h

theorem lacks_of_after? (live : f.IsLive) (ne : l ≠ .endOfFile) (h : f.after? l = none) : f.Lacks l := by
  cases f with
  | token t rest =>
    simp only [after?] at h
    split at h
    · cases h
    · assumption
  | done p => exact ne
  | stuck d => exact live

theorem eats_of_operator? {α : Type} {pick : Punct → Option α} {op : α} {r : f.Tail}
    (h : f.operator? pick = some (op, r)) : ∃ p, f.Eats (.punct p) r.1 ∧ pick p = some op := by
  cases f with
  | token t rest =>
    simp only [operator?] at h
    split at h
    · next p eq =>
      obtain ⟨op', hp, rfl, rfl⟩ : ∃ op', pick p = some op' ∧ op' = op ∧ Tail.first t rest = r := by
        simpa using h
      exact ⟨p, ⟨t, rfl, eq⟩, hp⟩
    · cases h
  | done p => cases h
  | stuck d => cases h

theorem lacks_of_operator? {α : Type} {pick : Punct → Option α} (live : f.IsLive)
    (h : f.operator? pick = none) {p : Punct} (hp : (pick p).isSome) : f.Lacks (.punct p) := by
  cases f with
  | token t rest =>
    intro eq
    simp only [operator?, eq, Option.map_eq_none_iff] at h
    rw [h] at hp
    cases hp
  | done p => rintro ⟨⟩
  | stuck d => exact live

theorem eats_of_skip {p : Punct} (live : (f.skip p).1.IsLive) : f.Eats (.punct p) (f.skip p).1 := by
  unfold skip at live ⊢
  cases h : f.after? (.punct p) with
  | none =>
    rw [h] at live
    exact live.elim
  | some r => exact eats_of_after? h

theorem eatsName_of_ident {x : Ident} {r : f.After} (h : f.ident = (.ok x, r)) : f.EatsName x r.1 := by
  cases f with
  | token t rest =>
    simp only [ident] at h
    split at h
    · next name eq =>
      cases h
      exact ⟨t, rfl, eq, rfl⟩
    · cases h
  | done p => cases h
  | stuck d => cases h

theorem Eats.isLive {r : Feed} (h : f.Eats l r) : f.IsLive := by
  obtain ⟨t, rfl, -⟩ := h
  trivial

theorem EatsName.isLive {x : Ident} {r : Feed} (h : f.EatsName x r) : f.IsLive := by
  obtain ⟨t, rfl, -⟩ := h
  trivial

end Feed

namespace Parse

theorem isLive_of_followed {e : Expr} {f : Feed} (h : (followed e f).IsWhole) : f.IsLive := by
  cases f with
  | token t rest => trivial
  | done p => trivial
  | stuck d => exact h

theorem followed_eq {e : Expr} {f : Feed} (h : f.IsLive) : followed e f = e := by
  cases f with
  | token t rest => rfl
  | done p => rfl
  | stuck d => exact h.elim

theorem isLive_of_loaded {x : Ident} {f : Feed} (h : (loaded x f).IsWhole) : f.IsLive := by
  cases f with
  | token t rest => trivial
  | done p => trivial
  | stuck d => exact h

theorem loaded_eq {x : Ident} {f : Feed} (h : f.IsLive) : loaded x f = .load x := by
  cases f with
  | token t rest => rfl
  | done p => rfl
  | stuck d => exact h.elim

end Parse

theorem ArithOp.ofSum?_eq_some {p : Punct} {op : ArithOp} (h : ofSum? p = some op) :
    op.isSum ∧ p = op.punct := by
  cases p <;> cases h <;> exact ⟨rfl, rfl⟩

theorem ArithOp.ofTerm?_eq_some {p : Punct} {op : ArithOp} (h : ofTerm? p = some op) :
    !op.isSum ∧ p = op.punct := by
  cases p <;> cases h <;> exact ⟨rfl, rfl⟩

theorem CompareOp.ofPunct?_eq_some {p : Punct} {op : CompareOp} (h : ofPunct? p = some op) :
    p = op.punct := by
  cases p <;> cases h <;> rfl

namespace Grammar

open Parse

/-! ### Expressions -/

mutual

theorem isExpr {f : Feed} {e : Expr} {r : f.After} (h : expr f = (e, r)) (whole : e.IsWhole) :
    IsExpr f e r.1 ∧ r.1.IsLive := by
  rw [expr] at h
  split at h
  next lhs g hs =>
  split at h
  · next op rest eq =>
    split at h
    next rhs r' hs' =>
    cases h
    have lt := rest.2
    have le := g.le
    obtain ⟨p, eats, hp⟩ := Feed.eats_of_operator? eq
    rw [CompareOp.ofPunct?_eq_some hp] at eats
    exact ⟨.compare (isSum hs whole.1).1 eats (isSum hs' whole.2).1, (isSum hs' whole.2).2⟩
  · next eq =>
    cases h
    obtain ⟨sum, live⟩ := isSum hs whole
    refine ⟨.sum sum fun op => Feed.lacks_of_operator? live eq ?_, live⟩
    cases op <;> rfl
termination_by f.size * 8 + 6
decreasing_by all_goals omega

theorem isSum {f : Feed} {e : Expr} {r : f.After} (h : sum f = (e, r)) (whole : e.IsWhole) :
    IsSum f e r.1 ∧ r.1.IsLive := by
  rw [sum] at h
  split at h
  next lhs g ht =>
  split at h
  next e' r' hs =>
  cases h
  have le := g.le
  obtain ⟨lhs_whole, sums⟩ := isSums hs whole
  obtain ⟨term, live⟩ := isTerm ht lhs_whole
  obtain ⟨sums, live⟩ := sums live
  exact ⟨.mk term sums, live⟩
termination_by f.size * 8 + 5
decreasing_by all_goals omega

theorem isSums {lhs : Expr} {f : Feed} {e : Expr} {r : f.Within} (h : sumTail lhs f = (e, r))
    (whole : e.IsWhole) : lhs.IsWhole ∧ (f.IsLive → IsSums lhs f e r.1 ∧ r.1.IsLive) := by
  rw [sumTail] at h
  split at h
  · next op rest eq =>
    split at h
    next rhs g ht =>
    split at h
    next e' r' hs =>
    cases h
    have lt := rest.2
    have le := g.le
    obtain ⟨⟨lhs_whole, rhs_whole⟩, sums⟩ := isSums hs whole
    obtain ⟨term, live⟩ := isTerm ht rhs_whole
    obtain ⟨sums, live⟩ := sums live
    obtain ⟨p, eats, hp⟩ := Feed.eats_of_operator? eq
    obtain ⟨isSum, rfl⟩ := ArithOp.ofSum?_eq_some hp
    exact ⟨lhs_whole, fun _ => ⟨.more isSum eats term sums, live⟩⟩
  · next eq =>
    cases h
    refine ⟨whole, fun live => ⟨.last fun op hop => Feed.lacks_of_operator? live eq ?_, live⟩⟩
    cases op <;> first | rfl | cases hop
termination_by f.size * 8
decreasing_by all_goals omega

theorem isTerm {f : Feed} {e : Expr} {r : f.After} (h : term f = (e, r)) (whole : e.IsWhole) :
    IsTerm f e r.1 ∧ r.1.IsLive := by
  rw [term] at h
  split at h
  next lhs g hc =>
  split at h
  next e' r' ht =>
  cases h
  have le := g.le
  obtain ⟨lhs_whole, terms⟩ := isTerms ht whole
  obtain ⟨cast, live⟩ := isCast hc lhs_whole
  obtain ⟨terms, live⟩ := terms live
  exact ⟨.mk cast terms, live⟩
termination_by f.size * 8 + 4
decreasing_by all_goals omega

theorem isTerms {lhs : Expr} {f : Feed} {e : Expr} {r : f.Within} (h : termTail lhs f = (e, r))
    (whole : e.IsWhole) : lhs.IsWhole ∧ (f.IsLive → IsTerms lhs f e r.1 ∧ r.1.IsLive) := by
  rw [termTail] at h
  split at h
  · next op rest eq =>
    split at h
    next rhs g hc =>
    split at h
    next e' r' ht =>
    cases h
    have lt := rest.2
    have le := g.le
    obtain ⟨⟨lhs_whole, rhs_whole⟩, terms⟩ := isTerms ht whole
    obtain ⟨cast, live⟩ := isCast hc rhs_whole
    obtain ⟨terms, live⟩ := terms live
    obtain ⟨p, eats, hp⟩ := Feed.eats_of_operator? eq
    obtain ⟨isTerm, rfl⟩ := ArithOp.ofTerm?_eq_some hp
    exact ⟨lhs_whole, fun _ => ⟨.more isTerm eats cast terms, live⟩⟩
  · next eq =>
    cases h
    refine ⟨whole, fun live => ⟨.last fun op hop => Feed.lacks_of_operator? live eq ?_, live⟩⟩
    cases op <;> first | rfl | cases hop
termination_by f.size * 8
decreasing_by all_goals omega

theorem isCast {f : Feed} {e : Expr} {r : f.After} (h : cast f = (e, r)) (whole : e.IsWhole) :
    IsCast f e r.1 ∧ r.1.IsLive := by
  rw [Parse.cast] at h
  split at h
  next operand g hu =>
  split at h
  · next rest eq =>
    split at h
    · next type r' hi =>
      cases h
      have live := isLive_of_followed whole
      rw [followed_eq live] at whole ⊢
      exact ⟨.cast (isUnary hu whole) (Feed.eats_of_after? eq) (Feed.eatsName_of_ident hi) live, live⟩
    · cases h
      exact whole.elim
  · next eq =>
    cases h
    have live := isLive_of_followed whole
    rw [followed_eq live] at whole ⊢
    exact ⟨.plain (isUnary hu whole) (Feed.lacks_of_after? live nofun eq), live⟩
termination_by f.size * 8 + 3
decreasing_by all_goals omega

theorem isUnary {f : Feed} {e : Expr} {r : f.After} (h : unary f = (e, r)) (whole : e.IsWhole) :
    IsUnary f e r.1 := by
  rw [unary] at h
  split at h
  · next rest eq =>
    split at h
    next operand g hu =>
    cases h
    have lt := rest.2
    exact .neg (Feed.eats_of_after? eq) (isUnary hu (operand.isWhole_negate.1 whole))
  · exact .primary (isPrimary h whole)
termination_by f.size * 8 + 2
decreasing_by all_goals omega

theorem isPrimary {f : Feed} {e : Expr} {r : f.After} (h : primary f = (e, r)) (whole : e.IsWhole) :
    IsPrimary f e r.1 := by
  match f, r, h with
  | .token t rest, r, h =>
    rw [primary.eq_def] at h
    dsimp only at h
    split at h
    · next value hl =>
      cases h
      exact .uint ⟨t, rfl, hl⟩
    · next value hl =>
      cases h
      exact .double ⟨t, rfl, hl⟩
    · next text hl =>
      cases h
      exact .string ⟨t, rfl, hl⟩
    · next c hl =>
      cases h
      exact .char ⟨t, rfl, hl⟩
    · next name hl =>
      have eats : (Feed.token t rest).EatsName ⟨name, t.start⟩ rest := ⟨t, rfl, hl, rfl⟩
      split at h
      · next g hg =>
        split at h
        · next r' hr =>
          cases h
          exact .callNone eats (Feed.eats_of_after? hg) (Feed.eats_of_after? hr)
        · cases h
          have lt := g.2
          exact .call eats (Feed.eats_of_after? hg) (isArgs rfl whole)
      · next noParen =>
        split at h
        · next g hg =>
          cases h
          have lt := g.2
          exact .assign eats (Feed.eats_of_after? hg) (isExpr rfl whole).1
        · next noAssign =>
          cases h
          have live := isLive_of_loaded whole
          rw [loaded_eq live]
          exact .load eats (Feed.lacks_of_after? live nofun noParen) (Feed.lacks_of_after? live nofun noAssign)
    · next p hl =>
      split at h
      · next paren =>
        split at h
        · next r' hr =>
          cases h
          exact .paren ⟨t, rfl, paren ▸ hl⟩ (isExpr rfl whole).1 (Feed.eats_of_after? hr)
        · cases h
          exact whole.elim
      · cases h
        exact whole.elim
    · cases h
      exact whole.elim
    · cases h
      exact whole.elim
  | .done p, r, h =>
    rw [primary.eq_def] at h
    cases h
    exact whole.elim
  | .stuck d, r, h =>
    rw [primary.eq_def] at h
    cases h
    exact whole.elim
termination_by f.size * 8 + 1
decreasing_by all_goals (simp only [Feed.size_token]; omega)

theorem isArgs {f : Feed} {as : Args} {r : f.After} (h : args f = (as, r)) (whole : as.IsWhole) :
    IsArgs f as r.1 := by
  rw [args] at h
  split at h
  next e g he =>
  split at h
  · next rest eq =>
    split at h
    next more r' ha =>
    cases h
    have lt := rest.2
    have le := g.le
    exact .more (isExpr he whole.1).1 (Feed.eats_of_after? eq) (isArgs ha whole.2)
  · split at h
    · next rest eq =>
      cases h
      exact .last (isExpr he whole.1).1 (Feed.eats_of_after? eq)
    · cases h
      exact whole.2.elim
termination_by f.size * 8 + 7
decreasing_by all_goals omega

end

/-! ### Declarations and statements -/

theorem isInit {isConst : Bool} {f : Feed} {init : Option Expr} {r : f.Within}
    (h : initial isConst f = (init, r)) (whole : ∀ e ∈ init, e.IsWhole) (live : r.1.IsLive) :
    IsInit isConst f init r.1 := by
  rw [initial] at h
  split at h
  · next rest eq =>
    cases h
    exact .value (Feed.eats_of_after? eq) (isExpr rfl (whole _ rfl)).1
  · next eq =>
    split at h
    · cases h
      exact (whole _ rfl).elim
    · next const =>
      cases h
      rw [Bool.not_eq_true] at const
      subst const
      exact .none (Feed.lacks_of_after? live nofun eq)

theorem isDecl {isConst : Bool} {f : Feed} {d : Decl} {r : f.After} (h : decl isConst f = (.ok d, r))
    (whole : d.IsWhole) : IsDecl isConst f d r.1 := by
  rw [decl] at h
  split at h
  · cases h
  next x g hx =>
  dsimp only at h
  split at h
  · cases h
  next type i ht =>
  split at h
  · next rest hs =>
    cases h
    have type := Feed.eatsName_of_ident ht
    have semicolon := Feed.eats_of_after? hs
    exact .mk (Feed.eatsName_of_ident hx) (Feed.eats_of_skip type.isLive) type
      (isInit rfl whole.2 semicolon.isLive) semicolon
  · cases h
    exact absurd whole.1 nofun

theorem isDecl_of_declStmt {isConst : Bool} {f : Feed} (whole : (declStmt (decl isConst f).1).IsWhole) :
    ∃ d, declStmt (decl isConst f).1 = .decl d ∧ IsDecl isConst f d (decl isConst f).2.1 := by
  rcases h : decl isConst f with ⟨fault | d, r⟩
  · rw [h] at whole
    exact whole.elim
  · rw [h] at whole
    exact ⟨d, rfl, isDecl h whole⟩

theorem isStmt_of_exprStmt {f : Feed} {s : Stmt} {r : f.After} (h : exprStmt f = (s, r))
    (whole : s.IsWhole) (live : r.1.IsLive) : IsStmt f s r.1 := by
  cases h
  exact .expr (isExpr rfl whole).1 (Feed.eats_of_skip live)

theorem isStmt_of_result {t : Token} {f : Feed} (ht : t.lexeme = .keyword .returnKw)
    (whole : ∀ e ∈ (result f).1, e.IsWhole) (live : (result f).2.1.IsLive) :
    IsStmt (.token t f) (.ret t.start (result f).1) (result f).2.1 := by
  unfold result at whole live ⊢
  split at whole
  · next rest eq => exact .ret ht (Feed.eats_of_after? eq)
  · next eq =>
    rw [eq] at live
    exact .retValue ht (isExpr rfl (whole _ rfl)).1 (Feed.eats_of_skip live)

theorem isLive_of_body {f : Feed} (whole : (body f).1.IsWhole) : f.IsLive := by
  cases f with
  | token t rest => trivial
  | done p => trivial
  | stuck d =>
    rw [body] at whole
    exact whole

mutual

/-- A statement that was read to its end: the token behind it can be looked at, because its block goes
on. -/
theorem isStmt {f : Feed} {s : Stmt} {r : f.After} (h : stmt f = (s, r)) (whole : s.IsWhole)
    (live : r.1.IsLive) : IsStmt f s r.1 := by
  match f, r, h, live with
  | .token t rest, r, h, live =>
    rw [stmt.eq_def] at h
    dsimp only at h
    split at h
    · next k hk =>
      split at h
      · cases h
        obtain ⟨d, eq, isDecl⟩ := isDecl_of_declStmt whole
        rw [eq]
        exact .letDecl ⟨t, rfl, hk⟩ isDecl
      · cases h
        obtain ⟨d, eq, isDecl⟩ := isDecl_of_declStmt whole
        rw [eq]
        exact .constDecl ⟨t, rfl, hk⟩ isDecl
      · cases h
        exact .cond ⟨t, rfl, hk⟩ (isIf rfl whole live)
      · cases h
        have le := (expr rest).2.le
        exact .loop ⟨t, rfl, hk⟩ (isExpr rfl whole.1).1 (isBlock rfl whole.2)
      · cases h
        exact isStmt_of_result hk whole live
      all_goals exact isStmt_of_exprStmt h whole live
    · next p hp =>
      split at h
      · next brace =>
        cases h
        exact .block (.mk ⟨t, rfl, brace ▸ hp⟩ (isBody rfl whole))
      · split at h
        · next semicolon =>
          cases h
          exact .empty ⟨t, rfl, semicolon ▸ hp⟩
        · exact isStmt_of_exprStmt h whole live
    all_goals exact isStmt_of_exprStmt h whole live
  | .done p, r, h, live =>
    rw [stmt.eq_def] at h
    exact isStmt_of_exprStmt h whole live
  | .stuck d, r, h, live =>
    rw [stmt.eq_def] at h
    exact isStmt_of_exprStmt h whole live
termination_by f.size * 8 + 3
decreasing_by all_goals (simp only [Feed.size_token]; omega)

theorem isBlock {f : Feed} {b : Block} {r : f.After} (h : block f = (b, r)) (whole : b.IsWhole) :
    IsBlock f b r.1 := by
  rw [block] at h
  split at h
  · next rest eq =>
    split at h
    next b' r' hb =>
    cases h
    have lt := rest.2
    exact .mk (Feed.eats_of_after? eq) (isBody hb whole)
  · cases h
    exact whole.elim
termination_by f.size * 8 + 1
decreasing_by all_goals omega

theorem isBody {f : Feed} {b : Block} {r : f.After} (h : body f = (b, r)) (whole : b.IsWhole) :
    IsBody f b r.1 := by
  rw [body] at h
  split at h
  · next rest eq =>
    cases h
    exact .close (Feed.eats_of_after? eq)
  · split at h
    · cases h
      exact whole.elim
    · split at h
      next s g hs =>
      split at h
      next b' r' hb =>
      cases h
      have lt := g.2
      have le := g.le
      exact .stmt (isStmt hs whole.1 (isLive_of_body (hb ▸ whole.2))) (isBody hb whole.2)
termination_by f.size * 8 + 4
decreasing_by all_goals omega

theorem isIf {f : Feed} {c : IfChain} {r : f.After} (h : ifChain f = (c, r)) (whole : c.IsWhole)
    (live : r.1.IsLive) : IsIf f c r.1 := by
  rw [ifChain] at h
  split at h
  next e g he =>
  split at h
  next b i hb =>
  split at h
  next o r' ho =>
  cases h
  have le := g.le
  have le' := i.le
  exact .mk (isExpr he whole.1).1 (isBlock hb whole.2.1) (isElse ho whole.2.2 live)
termination_by f.size * 8 + 2
decreasing_by all_goals omega

theorem isElse {f : Feed} {o : Else} {r : f.Within} (h : otherwise f = (o, r)) (whole : o.IsWhole)
    (live : r.1.IsLive) : IsElse f o r.1 := by
  rw [otherwise] at h
  split at h
  · next eq =>
    cases h
    exact .absent (Feed.lacks_of_after? live nofun eq)
  · next rest eq =>
    have lt := rest.2
    split at h
    · next g hg =>
      cases h
      have lt' := g.2
      exact .chain (Feed.eats_of_after? eq) (Feed.eats_of_after? hg) (isIf rfl whole live)
    · cases h
      exact .block (Feed.eats_of_after? eq) (isBlock rfl whole)
termination_by f.size * 8
decreasing_by all_goals omega

end

/-! ### Programs -/

theorem isParam {f : Feed} {p : Param} {r : f.After} (h : param f = (.ok p, r)) : IsParam f p r.1 := by
  rw [param, constness] at h
  split at h
  next isConst start hc =>
  split at hc
  · next rest const =>
    cases hc
    split at h
    · cases h
    next x g hx =>
    dsimp only at h
    split at h
    · cases h
    next type i ht =>
    cases h
    have type := Feed.eatsName_of_ident ht
    exact .const (Feed.eats_of_after? const) (Feed.eatsName_of_ident hx) (Feed.eats_of_skip type.isLive) type
  · cases hc
    split at h
    · cases h
    next x g hx =>
    dsimp only at h
    split at h
    · cases h
    next type i ht =>
    cases h
    have type := Feed.eatsName_of_ident ht
    exact .variable (Feed.eatsName_of_ident hx) (Feed.eats_of_skip type.isLive) type

theorem isParams {f : Feed} {ps : List Param} {r : f.After} (h : params f = (ps, r)) (live : r.1.IsLive) :
    IsParams f ps r.1 := by
  rw [params] at h
  split at h
  · cases h
    exact live.elim
  · next p g hp =>
    split at h
    · next rest eq =>
      split at h
      next ps' r' hps =>
      cases h
      have lt := rest.2
      have le := g.le
      exact .more (isParam hp) (Feed.eats_of_after? eq) (isParams hps live)
    · cases h
      exact .last (isParam hp) (Feed.eats_of_skip live)
termination_by f.size
decreasing_by omega

theorem isParamList {f : Feed} {ps : List Param} {r : f.After} (h : paramList f = (ps, r))
    (live : r.1.IsLive) : IsParamList f ps r.1 := by
  rw [paramList] at h
  split at h
  · next rest eq =>
    cases h
    exact .none (Feed.eats_of_after? eq)
  · exact .some (isParams h live)

theorem isItem_fn {t : Token} {f : Feed} {g : FnItem} {r : f.After} (ht : t.lexeme = .keyword .fnKw)
    (h : fnItem f = (.ok g, r)) (whole : (Item.fn g).IsWhole) : IsItem (.token t f) (.fn g) r.1 := by
  rw [fnItem] at h
  split at h
  · cases h
  next x i hx =>
  split at h
  · cases h
  next j hj =>
  dsimp only at h
  cases h
  obtain ⟨⟨type, eq⟩, body⟩ := whole
  dsimp only at eq
  have name := Feed.eatsName_of_ident (Prod.ext eq rfl)
  have arrow := Feed.eats_of_skip name.isLive
  have params := isParamList rfl arrow.isLive
  have block := isBlock rfl body
  simp only [eq]
  exact .fn ⟨t, rfl, ht⟩ (Feed.eatsName_of_ident hx) (Feed.eats_of_after? hj) params arrow name block

theorem isItem {t : Token} {k : Keyword} {f : Feed} {i : Item} {r : f.After} (ht : t.lexeme = .keyword k)
    (h : item t k f = (.ok i, r)) (whole : i.IsWhole) : IsItem (.token t f) i r.1 := by
  unfold item at h
  cases k with
  | fnKw =>
    rcases hf : fnItem f with ⟨fault | g, r'⟩
    · rw [hf] at h
      cases h
    · rw [hf] at h
      cases h
      exact isItem_fn ht hf whole
  | letKw =>
    rcases hd : decl false f with ⟨fault | d, r'⟩
    · rw [hd] at h
      cases h
    · rw [hd] at h
      cases h
      exact .letDecl ⟨t, rfl, ht⟩ (isDecl hd whole)
  | constKw =>
    rcases hd : decl true f with ⟨fault | d, r'⟩
    · rw [hd] at h
      cases h
    · rw [hd] at h
      cases h
      exact .constDecl ⟨t, rfl, ht⟩ (isDecl hd whole)
  | asKw | whileKw | ifKw | elseKw | returnKw | breakKw | continueKw => cases h

theorem isProgram_items {f : Feed} {is : List Item} {finish : Except Diagnostic Position}
    (h : items f = (is, finish)) (whole : Program.IsWhole ⟨is, finish⟩) : IsProgram f ⟨is, finish⟩ := by
  match f, h with
  | .done p, h =>
    rw [items.eq_def] at h
    cases h
    exact .done
  | .stuck d, h =>
    rw [items.eq_def] at h
    cases h
    obtain ⟨-, position, eq⟩ := whole
    cases eq
  | .token t rest, h =>
    rw [items.eq_def] at h
    dsimp only at h
    split at h
    · next k hk =>
      split at h
      · next i r hi =>
        cases h
        have le := r.le
        have all := List.forall_mem_cons.1 whole.1
        exact .item (p := ⟨_, _⟩) (isItem hk hi all.1) (isProgram_items rfl ⟨all.2, whole.2⟩)
      · cases h
        obtain ⟨-, position, eq⟩ := whole
        cases eq
    · cases h
      obtain ⟨-, position, eq⟩ := whole
      cases eq
termination_by f.size
decreasing_by simp only [Feed.size_token]; omega

/-- A program without holes is what the grammar gives. -/
theorem isProgram {f : Feed} (whole : (Program.ofFeed f).IsWhole) : IsProgram f (.ofFeed f) :=
  isProgram_items rfl whole

end Grammar

end CZero
