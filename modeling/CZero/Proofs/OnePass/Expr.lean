import CZero.Proofs.OnePass.Agreement

/-!
# Expressions in one pass

Each routine for a level of the grammar agrees with parsing and lowering on that level. The induction is on
the fuel, for all routines at once: `ExprsAgree total n` says it for `n` units. How many are enough depends on
what is to come. Each item of it allows for 32 units, more than there are routines to enter before it is
consumed, and the routine itself needs as many as its rank.
-/

namespace CZero

/-! ### Trees of expressions -/

/-- An expression behind more minus signs. -/
def Expr.behind (signs : Nat) : Expr → Expr
  | .neg k e => .neg (k + signs) e
  | e => .neg signs e

theorem Expr.behind_negate (signs : Nat) (e : Expr) : e.negate.behind signs = e.behind (signs + 1) := by
  cases e with
  | neg k e => exact congrArg (Expr.neg · e) (Nat.add_right_comm k 1 signs)
  | _ => exact congrArg (Expr.neg · _) (Nat.add_comm 1 signs)

namespace Lower

theorem expr_behind_zero (e : Expr) : expr (e.behind 0) = expr e := by
  have zero : expr (.neg 0 e) = expr e := by
    rw [expr]
    exact bind_pure _
  cases e with
  | neg k e => rfl
  | _ => exact zero

/-- What is lowered of a comparison behind its operands. -/
theorem expr_compare (op : CompareOp) (lhs rhs : Expr) : expr (.compare op lhs rhs) = do
    let ty ← expr lhs
    let _ ← expr rhs
    OnePass.compare op
    return ty := by
  rw [expr]
  cases op <;> simp [CompareOp.test, OnePass.compare]

/-- Reports what is wrong behind an expression. -/
def unlessStuck (ty : Ty) : Feed → Lower Ty
  | .token _ _ | .done _ => return ty
  | .stuck d => throw d

theorem expr_followed (e : Expr) (f : Feed) : expr (Parse.followed e f) = expr e >>= (unlessStuck · f) := by
  cases f with
  | token t rest => exact (bind_pure _).symm
  | done p => exact (bind_pure _).symm
  | stuck d => rw [Parse.followed, expr]; rfl

end Lower

namespace Parse

theorem primary_stuck (d : Diagnostic) : primary (.stuck d) = noExpr (.stuck d) := by
  rw [primary.eq_def]

theorem unary_stuck (d : Diagnostic) : unary (.stuck d) = noExpr (.stuck d) := by
  rw [unary]
  exact primary_stuck d

theorem behind_loaded (x : Ident) (f : Feed) (signs : Nat) : (loaded x f).behind signs = .neg signs (loaded x f) := by
  cases f <;> rfl

theorem behind_primary {f : Feed} {e : Expr} {r : f.After} (h : primary f = (e, r)) (signs : Nat) :
    e.behind signs = .neg signs e := by
  rw [primary.eq_def] at h
  repeat' split at h
  all_goals
    cases h
    first | rfl | exact behind_loaded ..

/-- Where nothing can be read, there is no expression. -/
theorem expr_stuck (d : Diagnostic) : (expr (.stuck d)).1 = .cutOff (.hole d) d := by
  rw [expr, sum, term, Parse.cast, unary_stuck]
  simp only [noExpr, Feed.After.stop, Feed.after?, followed]
  rw [termTail]
  simp only [Feed.operator?]
  rw [sumTail]
  rfl

end Parse

namespace OnePass

variable {total : List (Except Diagnostic Token)} {n : Nat} {f : Feed}

theorem allows_hole {w : Manner} {r : Feed} (d : Diagnostic) : Allows w r (Lower.expr (.hole d)) d := by
  rw [Lower.expr]
  exact allows_throw d

theorem allows_expr_stuck {w : Manner} {r : Feed} {d : Diagnostic} {e : Expr} {r' : f.After} (stuck : f = .stuck d)
    (h : Parse.expr f = (e, r')) : Allows w r (Lower.expr e) d := by
  subst stuck
  obtain rfl : e = .cutOff (.hole d) d := by rw [← Parse.expr_stuck, h]
  rw [Lower.expr]
  exact (allows_hole (r := r) d).bind _

theorem agrees_load (name : Ident) (f : Feed) :
    Agrees total .plain top (load name) f (Lower.expr (.load name)) f := by
  rw [Lower.expr]
  exact .lower fun _ => .lower fun _ => .lower fun _ => .pure trivial

/-- What is wrong behind an expression is found by whoever looks there next. -/
theorem agrees_unlessStuck (ty : Ty) (f : Feed) : Agrees total .late top (pure ty) f (Lower.unlessStuck ty f) f := by
  cases f with
  | token t rest => exact .pure trivial
  | done p => exact .pure trivial
  | stuck d => exact fun s at' level => .late rfl at' level

theorem allows_args_stuck {w : Manner} {r : Feed} {d : Diagnostic} {as : Args} {r' : f.After} (stuck : f = .stuck d)
    (h : Parse.args f = (as, r')) : Allows w r (Lower.args as) d := by
  subst stuck
  rw [Parse.args] at h
  split at h
  next e g he =>
  have first (rest : Args) : Allows w r (Lower.args (.arg e rest)) d := by
    rw [Lower.args]
    exact (allows_expr_stuck (r := r) rfl he).bind _
  split at h
  · split at h
    cases h
    exact first _
  · split at h <;> cases h <;> exact first _

/-! ### Operators -/

/-- Routine `x`, run behind the operand `lhs`, makes the expression `e` of it: it lowers what `e` has more than
`lhs`. -/
structure Extends (total : List (Except Diagnostic Token)) (x : Pass Unit) (lhs : Expr) (f : Feed) (e : Expr)
    (r : Feed) : Prop where
  looks : Looks total x
  agrees : ∃ rest : Lower Unit, (Lower.expr e = do let ty ← Lower.expr lhs; rest; return ty) ∧
    (f.IsLive → Agrees total .sighted top x f rest r)

theorem looks_operation {m : Mark} {pick : Punct → Option ArithOp} {x : Pass Ty} {y : Pass Unit} :
    Looks total (operation m pick x y) :=
  (looks_peek.bind _).bind _

/-- No operator comes next. -/
theorem extends_nil {m : Mark} {pick : Punct → Option ArithOp} {x : Pass Ty} {y : Pass Unit} {e : Expr}
    (none : f.operator? pick = none) : Extends total (operation m pick x y) e f e f := by
  refine ⟨looks_operation, return (), by simp, fun live => ?_⟩
  exact .operator?_none none live (.pure live)

/-- An operator comes next. -/
theorem extends_cons {m : Mark} {pick : Punct → Option ArithOp} {op : ArithOp} {rest : f.Tail} {x : Pass Ty}
    {y : Pass Unit} {k : Nat} {lhs rhs e : Expr} {g r : Feed} (eq : f.operator? pick = some (op, rest))
    (operand : Agrees total .late k x rest.1 (Lower.expr rhs) g)
    (more : Extends total y (.arith op lhs rhs) g e r) : Extends total (operation m pick x y) lhs f e r := by
  obtain ⟨looks, others, whole, agrees⟩ := more
  obtain ⟨p, eats, -⟩ := Feed.eats_of_operator? eq
  refine ⟨looks_operation, (Lower.expr rhs >>= fun _ => Lower.emit op.opcode) >>= fun _ => others, ?_, fun _ => ?_⟩
  · rw [whole, Lower.expr]
    simp only [bind_assoc, pure_bind]
  · refine .operator?_some eq ?_
    have turn : Agrees total .late top (within m do let _ ← next; let _ ← x; lower (Lower.emit op.opcode)) f
        (Lower.expr rhs >>= fun _ => Lower.emit op.opcode) g :=
      .within (.next_eats eats fun _ => operand.fresh.emit_late op.opcode) m.rank_lt_top
    exact turn.bind_late (fun _ => agrees) fun _ => looks

/-- An operand and the operators behind it. -/
theorem Extends.after {x : Pass Ty} {y : Pass Unit} {k : Nat} {lhs e : Expr} {g r : Feed}
    (more : Extends total y lhs g e r) (first : Agrees total .late k x f (Lower.expr lhs) g) :
    Agrees total .sighted k (do let ty ← x; y; return ty) f (Lower.expr e) r := by
  obtain ⟨looks, others, whole, agrees⟩ := more
  rw [whole]
  exact first.bind_late (fun _ live => (agrees live).bind_sighted fun _ live => .pure live) fun _ => looks.bind _

/-! ### Lists -/

theorem closed_bind {α : Type} (x : Pass Unit) (l : Lexeme) (y : Pass α) :
    (x >>= fun _ => expect l >>= fun _ => y) = (do x; let _ ← expect l) >>= fun _ => y := by
  simp only [bind_assoc, pure_bind]

/-- There is a comma behind an element. -/
theorem Agrees.element_more {α : Type} {m : Mark} {x : Pass α} {low : Lower α} {g : Feed} {rest : g.Tail} {k : Nat}
    (first : Agrees total .plain m.rank x f low g) (eq : g.after? (.punct .comma) = some rest) (lt : m.rank < k) :
    Agrees total .plain k (element m x) f (low >>= fun a => Pure.pure (a, true)) rest.1 := by
  refine .within (first.bind fun _ => ?_) lt
  exact .check_some eq (.next_eats (Feed.eats_of_after? eq) fun _ => .pure trivial)

/-- There is no comma behind an element. If nothing can be read there, this is found out early. -/
theorem Agrees.element_last {α : Type} {m : Mark} {x : Pass α} {low : Lower α} {g : Feed} {k : Nat}
    (first : Agrees total .plain m.rank x f low g) (eq : g.after? (.punct .comma) = none) (lt : m.rank < k) :
    Agrees total .early k (element m x) f (low >>= fun a => Pure.pure (a, false)) g := by
  refine .within (first.bind fun _ => .check_none (punct_ne _) eq (fun _ => .pure trivial) fun _ stuck => ?_) lt
  exact allows_of_clerical (Lower.clerical_pure _) stuck

/-! ### All routines at once -/

/-- The arguments of a call, up to the closing parenthesis. -/
inductive Arguments : Feed → Args → Feed → Prop
  | none {f : Feed} {r : f.Tail} : f.after? (.punct .rparen) = some r → Arguments f .close r.1
  | some {f : Feed} {as : Args} {r : f.After} : f.after? (.punct .rparen) = Option.none → Parse.args f = (as, r) →
    Arguments f as r.1

/-- With fuel `n` the routines for expressions agree with parsing and lowering, if that is enough. -/
structure ExprsAgree (total : List (Except Diagnostic Token)) (n : Nat) : Prop where
  expr {f : Feed} {e : Expr} {r : f.After} : Parse.expr f = (e, r) → f.size * 32 + 7 ≤ n →
    Agrees total .sighted 8 (expr n) f (Lower.expr e) r.1
  sum {f : Feed} {e : Expr} {r : f.After} : Parse.sum f = (e, r) → f.size * 32 + 6 ≤ n →
    Agrees total .sighted 7 (sum n) f (Lower.expr e) r.1
  moreTerms {lhs : Expr} {f : Feed} {e : Expr} {r : f.Within} : Parse.sumTail lhs f = (e, r) →
    f.size * 32 + 1 ≤ n → Extends total (moreTerms n) lhs f e r.1
  term {f : Feed} {e : Expr} {r : f.After} : Parse.term f = (e, r) → f.size * 32 + 5 ≤ n →
    Agrees total .sighted 6 (term n) f (Lower.expr e) r.1
  moreCasts {lhs : Expr} {f : Feed} {e : Expr} {r : f.Within} : Parse.termTail lhs f = (e, r) →
    f.size * 32 + 1 ≤ n → Extends total (moreCasts n) lhs f e r.1
  cast {f : Feed} {e : Expr} {r : f.After} : Parse.cast f = (e, r) → f.size * 32 + 4 ≤ n →
    Agrees total .late 5 (cast n) f (Lower.expr e) r.1
  unary {f : Feed} {e : Expr} {r : f.After} : Parse.unary f = (e, r) → f.size * 32 + 3 ≤ n →
    Agrees total .plain 4 (unary n) f (Lower.expr e) r.1
  minuses {f : Feed} {e : Expr} {r : f.After} (signs : Nat) : Parse.unary f = (e, r) → f.size * 32 + 2 ≤ n →
    Agrees total .plain 3 (minuses n (.ofNat signs)) f (Lower.expr (e.behind signs)) r.1
  primary {f : Feed} {e : Expr} {r : f.After} : Parse.primary f = (e, r) → f.size * 32 + 1 ≤ n →
    Agrees total .plain 2 (primary n) f (Lower.expr e) r.1
  call {name : Ident} {f : Feed} {g : f.Tail} {as : Args} {r : Feed} : f.after? (.punct .lparen) = some g →
    Arguments g.1 as r → f.size * 32 + 1 ≤ n →
    Agrees total .plain top (call n name) f (Lower.expr (.call name as)) r
  moreArgs {f : Feed} {as : Args} {r : f.After} : Parse.args f = (as, r) → f.size * 32 + 8 ≤ n →
    Agrees total .plain top (do moreArgs n; let _ ← expect (.punct .rparen)) f (Lower.args as) r.1
  assignment {name : Ident} {f : Feed} {g : f.Tail} {e : Expr} {r : g.1.After} :
    f.after? (.punct .assign) = some g → Parse.expr g.1 = (e, r) → f.size * 32 + 1 ≤ n →
    Agrees total .plain top (assignment n name) f (Lower.expr (.assign name e)) r.1

namespace ExprsAgree

variable (ih : ExprsAgree total n)
include ih

theorem expr_succ {e : Expr} {r : f.After} (h : Parse.expr f = (e, r)) (fuel : f.size * 32 + 7 ≤ n + 1) :
    Agrees total .sighted 8 (OnePass.expr (n + 1)) f (Lower.expr e) r.1 := by
  rw [OnePass.expr]
  refine .within ?_ (by decide)
  rw [Parse.expr] at h
  split at h
  next lhs g hs =>
  have left := ih.sum hs (by omega)
  split at h
  · next op rest eq =>
    split at h
    next rhs r' hs' =>
    cases h
    have lt := rest.2
    have le := g.le
    have right := ih.sum hs' (by omega)
    obtain ⟨p, eats, -⟩ := Feed.eats_of_operator? eq
    rw [Lower.expr_compare]
    refine left.bind_sighted fun ty _ => .operator?_some eq (.next_eats eats fun _ => ?_)
    exact right.fresh.bind_sighted fun _ live => .lower fun _ => .pure live
  · next eq =>
    cases h
    rw [← bind_pure (Lower.expr e)]
    refine left.bind_sighted fun ty live => ?_
    exact .operator?_none eq live (.pure live)

theorem sum_succ {e : Expr} {r : f.After} (h : Parse.sum f = (e, r)) (fuel : f.size * 32 + 6 ≤ n + 1) :
    Agrees total .sighted 7 (OnePass.sum (n + 1)) f (Lower.expr e) r.1 := by
  rw [OnePass.sum]
  refine .within ?_ (by decide)
  rw [Parse.sum] at h
  split at h
  next lhs g ht =>
  split at h
  next e' r' hs =>
  cases h
  have le := g.le
  exact (ih.moreTerms hs (by omega)).after ((ih.term ht (by omega)).weaken .late)

theorem moreTerms_succ {lhs e : Expr} {r : f.Within} (h : Parse.sumTail lhs f = (e, r))
    (fuel : f.size * 32 + 1 ≤ n + 1) : Extends total (OnePass.moreTerms (n + 1)) lhs f e r.1 := by
  rw [OnePass.moreTerms]
  rw [Parse.sumTail] at h
  split at h
  · next op rest eq =>
    split at h
    next rhs g ht =>
    split at h
    next e' r' hs =>
    cases h
    have lt := rest.2
    have le := g.le
    exact extends_cons eq ((ih.term ht (by omega)).weaken .late) (ih.moreTerms hs (by omega))
  · next eq =>
    cases h
    exact extends_nil eq

theorem term_succ {e : Expr} {r : f.After} (h : Parse.term f = (e, r)) (fuel : f.size * 32 + 5 ≤ n + 1) :
    Agrees total .sighted 6 (OnePass.term (n + 1)) f (Lower.expr e) r.1 := by
  rw [OnePass.term]
  refine .within ?_ (by decide)
  rw [Parse.term] at h
  split at h
  next lhs g hc =>
  split at h
  next e' r' ht =>
  cases h
  have le := g.le
  exact (ih.moreCasts ht (by omega)).after (ih.cast hc (by omega))

theorem moreCasts_succ {lhs e : Expr} {r : f.Within} (h : Parse.termTail lhs f = (e, r))
    (fuel : f.size * 32 + 1 ≤ n + 1) : Extends total (OnePass.moreCasts (n + 1)) lhs f e r.1 := by
  rw [OnePass.moreCasts]
  rw [Parse.termTail] at h
  split at h
  · next op rest eq =>
    split at h
    next rhs g hc =>
    split at h
    next e' r' ht =>
    cases h
    have lt := rest.2
    have le := g.le
    exact extends_cons eq (ih.cast hc (by omega)) (ih.moreCasts ht (by omega))
  · next eq =>
    cases h
    exact extends_nil eq

theorem cast_succ {e : Expr} {r : f.After} (h : Parse.cast f = (e, r)) (fuel : f.size * 32 + 4 ≤ n + 1) :
    Agrees total .late 5 (OnePass.cast (n + 1)) f (Lower.expr e) r.1 := by
  rw [OnePass.cast]
  refine .within ?_ (by decide)
  rw [Parse.cast] at h
  split at h
  next operand g hu =>
  have first := ih.unary hu (by omega)
  split at h
  · next rest eq =>
    have eats := Feed.eats_of_after? eq
    split at h
    · next type r' hi =>
      cases h
      rw [Lower.expr_followed, Lower.expr]
      simp only [bind_assoc, pure_bind]
      refine first.bind fun ty => .check_some eq (.next_eats eats fun _ => .ident_ok hi (.lower fun _ => ?_))
      exact agrees_unlessStuck ty _
    · next d r' hi =>
      cases h
      rw [Lower.expr]
      exact first.bind fun ty => .check_some eq (.next_eats eats fun _ => .ident_error hi (allows_throw d))
  · next eq =>
    cases h
    rw [Lower.expr_followed]
    refine first.bind fun ty => .check_none (keyword_ne _) eq (fun _ => agrees_unlessStuck ty _) ?_
    rintro d stuck
    rw [stuck]
    exact allows_throw d

theorem unary_succ {e : Expr} {r : f.After} (h : Parse.unary f = (e, r)) (fuel : f.size * 32 + 3 ≤ n + 1) :
    Agrees total .plain 4 (OnePass.unary (n + 1)) f (Lower.expr e) r.1 := by
  rw [OnePass.unary]
  have inner := ih.minuses 0 h (by omega)
  rw [Lower.expr_behind_zero] at inner
  exact .within inner (by decide)

theorem minuses_succ {e : Expr} {r : f.After} (signs : Nat) (h : Parse.unary f = (e, r))
    (fuel : f.size * 32 + 2 ≤ n + 1) :
    Agrees total .plain 3 (OnePass.minuses (n + 1) (.ofNat signs)) f (Lower.expr (e.behind signs)) r.1 := by
  rw [OnePass.minuses]
  rw [Parse.unary] at h
  split at h
  · next rest eq =>
    split at h
    next operand g hu =>
    cases h
    have lt := rest.2
    have inner := ih.minuses (signs + 1) hu (by omega)
    rw [Int32.ofNat_add] at inner
    rw [Expr.behind_negate]
    exact .check_some eq (.within_next (Feed.eats_of_after? eq) (by decide) fun _ => inner.fresh)
  · next eq =>
    have operand := (ih.primary h (by omega)).mono (show 2 ≤ 3 by decide)
    rw [Parse.behind_primary h, Lower.expr]
    refine .check_none (punct_ne _) eq (fun _ => operand.bind fun _ => .lower fun _ => .pure trivial) ?_
    rintro d rfl
    rw [Parse.primary_stuck] at h
    cases h
    exact (allows_hole (r := .stuck d) d).bind _

theorem primary_succ {e : Expr} {r : f.After} (h : Parse.primary f = (e, r)) (fuel : f.size * 32 + 1 ≤ n + 1) :
    Agrees total .plain 2 (OnePass.primary (n + 1)) f (Lower.expr e) r.1 := by
  rw [OnePass.primary]
  refine .within ?_ (by decide)
  cases f with
  | stuck d =>
    rw [Parse.primary.eq_def] at h
    cases h
    exact .next_stuck (allows_hole d)
  | done p =>
    rw [Parse.primary.eq_def] at h
    cases h
    exact .next_done (fun _ => rfl) (allows_hole _)
  | token t rest =>
    refine .next_token ?_
    rw [Feed.size_token] at fuel
    rw [Parse.primary.eq_def] at h
    dsimp only at h
    generalize t.lexeme = l at h ⊢
    cases l with
    | uint value =>
      cases h
      rw [Lower.expr]
      exact .lower fun _ => .pure trivial
    | double value =>
      cases h
      rw [Lower.expr]
      exact .pure trivial
    | string text =>
      cases h
      rw [Lower.expr]
      exact .lower fun _ => .lower fun _ => .pure trivial
    | char c =>
      cases h
      rw [Lower.expr]
      exact .lower fun _ => .pure trivial
    | ident name =>
      dsimp only at h
      split at h
      · next g hg =>
        split at h
        · next r' hr =>
          cases h
          exact .check_some hg (ih.call hg (.none hr) (by omega))
        · next noParen =>
          cases h
          exact .check_some hg (ih.call hg (.some noParen rfl) (by omega))
      · next noParen =>
        split at h
        · next g hg =>
          cases h
          refine .check_none (punct_ne _) noParen (fun _ => .check_some hg (ih.assignment hg rfl (by omega))) ?_
          rintro d rfl
          cases hg
        · next noAssign =>
          cases h
          have stuck (d : Diagnostic) (eq : rest = .stuck d) :
              Allows .plain rest (Lower.expr (Parse.loaded ⟨name, t.start⟩ rest)) d := by
            subst eq
            exact allows_hole d
          refine .check_none (punct_ne _) noParen (fun _ => ?_) stuck
          refine .check_none (punct_ne _) noAssign (fun live => ?_) stuck
          rw [Parse.loaded_eq live]
          exact agrees_load _ _
    | punct p =>
      dsimp only at h ⊢
      split at h
      · next paren =>
        subst paren
        have inner : Agrees total .sighted 8 (OnePass.expr n) rest _ _ := ih.expr rfl (by omega)
        split at h
        · next r' hr =>
          cases h
          rw [Lower.expr, ← bind_pure (Lower.expr _)]
          exact inner.fresh.bind_sighted fun _ _ => .expect_some hr fun _ _ => .pure trivial
        · next noParen =>
          cases h
          rw [Lower.expr]
          exact inner.fresh.bind_sighted fun _ _ => .expect_none (punct_ne _) noParen (allows_throw _)
      · next paren =>
        cases h
        rw [if_neg paren]
        exact .stop (allows_hole _)
    | keyword _ | endOfFile =>
      cases h
      exact .stop (allows_hole _)

theorem call_succ {name : Ident} {g : f.Tail} {as : Args} {r : Feed} (hg : f.after? (.punct .lparen) = some g)
    (h : Arguments g.1 as r) (fuel : f.size * 32 + 1 ≤ n + 1) :
    Agrees total .plain top (OnePass.call (n + 1) name) f (Lower.expr (.call name as)) r := by
  rw [OnePass.call, Lower.expr]
  refine .within ?_ (by decide)
  refine .lower fun info => .lower fun _ => .expect_some hg fun _ _ => ?_
  cases h with
  | none hr =>
    refine .check_some hr (.expect_some hr fun _ _ => ?_)
    rw [Lower.args, pure_bind]
    exact .lower fun _ => .pure trivial
  | some noParen ha =>
    have lt := g.2
    refine .check_none (punct_ne _) noParen (fun _ => ?_) fun d stuck => ?_
    · change Agrees total .plain top (OnePass.moreArgs n >>= fun _ => expect _ >>= fun _ => _) _ _ _
      rw [closed_bind]
      exact (ih.moreArgs ha (by omega)).bind fun _ => .lower fun _ => .pure trivial
    · exact (allows_args_stuck (r := g.1) stuck ha).bind _

theorem moreArgs_succ {as : Args} {r : f.After} (h : Parse.args f = (as, r)) (fuel : f.size * 32 + 8 ≤ n + 1) :
    Agrees total .plain top (do OnePass.moreArgs (n + 1); let _ ← expect (.punct .rparen)) f (Lower.args as) r.1 := by
  rw [OnePass.moreArgs, bind_assoc]
  rw [Parse.args] at h
  split at h
  next e g he =>
  have first := (ih.expr he (by omega)).weaken .plain
  split at h
  · next rest eq =>
    split at h
    next more r' ha =>
    cases h
    have lt := rest.2
    have le := g.le
    rw [Lower.args]
    refine (first.element_more eq (by decide)).early.bind_map (fun _ => ih.moreArgs ha (by omega)) fun _ d stuck => ?_
    exact allows_args_stuck stuck ha
  · next noComma =>
    have last := Agrees.element_last (m := .nextArg) first noComma Mark.nextArg.rank_lt_top
    split at h
    · next rest eq =>
      cases h
      rw [Lower.args]
      refine last.bind_map (fun _ => .expect_some eq fun _ _ => .pure trivial) fun _ d stuck => ?_
      obtain ⟨t, token, -⟩ := Feed.eats_of_after? eq
      cases token.symm.trans stuck
    · next noParen =>
      cases h
      rw [Lower.args]
      refine last.bind_map (fun _ => ?_) fun _ d stuck => ?_
      · exact .expect_none (punct_ne .rparen) noParen (allows_throw _)
      · rw [stuck]
        exact allows_throw d

theorem assignment_succ {name : Ident} {g : f.Tail} {e : Expr} {r : g.1.After}
    (hg : f.after? (.punct .assign) = some g) (h : Parse.expr g.1 = (e, r)) (fuel : f.size * 32 + 1 ≤ n + 1) :
    Agrees total .plain top (OnePass.assignment (n + 1) name) f (Lower.expr (.assign name e)) r.1 := by
  have lt := g.2
  have value := ih.expr h (by omega)
  rw [OnePass.assignment, Lower.expr]
  refine .within ?_ (by decide)
  refine .lower fun found => .expect_some hg fun _ _ => .lower fun _ => ?_
  exact value.fresh.bind_sighted fun _ _ => .lower fun _ => .lower fun _ => .lower fun _ => .pure trivial

end ExprsAgree

/-- The routines for expressions agree with parsing and lowering. -/
theorem exprsAgree (n : Nat) : ExprsAgree total n := by
  induction n with
  | zero => constructor <;> intros <;> omega
  | succ n ih =>
    exact ⟨ih.expr_succ, ih.sum_succ, ih.moreTerms_succ, ih.term_succ, ih.moreCasts_succ, ih.cast_succ,
      ih.unary_succ, ih.minuses_succ, ih.primary_succ, ih.call_succ, ih.moreArgs_succ, ih.assignment_succ⟩

end OnePass

end CZero
