import CZero.Proofs.OnePass.Expr

/-!
# Declarations and statements in one pass

Statements end with a semicolon, and a tree does not say that one is missing: the feed is stuck behind it. The
routine for a statement asks for the semicolon itself, so it finds out early. The statements of a block go on
where it has stopped, and there the tree is cut off.
-/

namespace CZero

/-! ### Trees of statements -/

namespace Lower

/-- Lowers the value that a variable starts with. -/
def initialValue (name : Ident) (reserved : Option Nat) : Option Expr → Lower (Bool × Option Site)
  | none => return (false, none)
  | some value => do
    let site ← OnePass.valueAddress reserved
    let found ← expr value
    storable name found
    emit .store64
    return (true, site)

/-- Lowers the rest of a declaration whose type is known. -/
def declRest (d : Decl) (ty : Ty) (layer : Nat) (reserved : Option Nat) : Lower Unit := do
  let (isInit, site) ← initialValue d.name reserved d.init
  match d.cutOff with
  | some fault => throw fault
  | none => OnePass.declareVariable d.isConst isInit d.name ty layer reserved site

theorem throw_bind {α β : Type} (d : Diagnostic) (next : α → Lower β) : (throw d : Lower α) >>= next = throw d :=
  rfl

theorem decl_eq (d : Decl) : decl d = (do
    let ty ← valueType d.name d.type
    let context ← get
    let reserved ← OnePass.reserve context.table.layer d.name
    declRest d ty context.table.layer reserved) := by
  unfold decl
  refine bind_congr fun ty => bind_congr fun c => ?_
  obtain ⟨isConst, name, type, init, cutOff⟩ := d
  dsimp only [OnePass.reserve]
  split
  · cases init <;> cases cutOff <;>
      simp [declRest, initialValue, OnePass.valueAddress, OnePass.declareVariable, throw_bind]
  · cases init <;> cases cutOff <;>
      simp [declRest, initialValue, OnePass.valueAddress, OnePass.declareVariable, throw_bind]

theorem ret_none (keyword : Position) :
    ret keyword none = ask (·.function ·) >>= fun info =>
      (if info.ret ≠ .void then fail .returnTypeMismatch keyword else pure ()) >>= fun _ => emit .ret := by
  unfold ret
  refine bind_congr fun info => ?_
  dsimp only
  split <;> rfl

theorem ret_some (keyword : Position) (e : Expr) :
    ret keyword (some e) = ask (·.function ·) >>= fun info => emitWith .arga 0 >>= fun _ => expr e >>= fun found =>
      (if info.ret = .void ∨ found ≠ info.ret then fail .returnTypeMismatch keyword else pure ()) >>= fun _ =>
      emit .store64 >>= fun _ => emit .ret := by
  unfold ret
  refine bind_congr fun info => bind_congr fun _ => bind_congr fun found => ?_
  dsimp only
  split <;> rfl

theorem ifChain_eq (c : Expr) (b : Block) (o : Else) : ifChain (.mk c b o) = (do
    condition c
    let skip ← placeholder .br
    block b
    let jump ← elsePart o
    OnePass.closeCond skip jump) := by
  rw [ifChain]
  refine bind_congr fun _ => bind_congr fun skip => bind_congr fun _ => bind_congr fun jump => ?_
  cases jump <;> simp [OnePass.closeCond]

theorem condition_eq (e : Expr) : condition e = expr e >>= fun _ => OnePass.closeCondition :=
  rfl

end Lower

namespace Feed

variable {f : Feed} {p : Punct}

theorem skip_some {rest : f.Tail} (eq : f.after? (.punct p) = some rest) : f.skip p = rest.alone := by
  rw [skip, eq]

theorem skip_none (eq : f.after? (.punct p) = none) :
    f.skip p = .stop f (f.complaint [(Lexeme.punct p).describe]) := by
  rw [skip, eq]
  rfl

theorem skip_stuck {d : Diagnostic} (stuck : f = .stuck d) : (f.skip p).1 = .stuck d := by
  subst stuck
  rfl

end Feed

namespace OnePass

variable {α : Type} {total : List (Except Diagnostic Token)} {w : Manner} {n k : Nat} {f r : Feed} {low : Lower α}

theorem clerical_valueAddress (reserved : Option Nat) : (valueAddress reserved).Clerical := by
  cases reserved with
  | some index => exact (Lower.clerical_emitWith _ _).bind fun _ => Lower.clerical_pure _
  | none =>
    rw [valueAddress, map_eq_pure_bind]
    exact (Lower.clerical_placeholder _).bind fun _ => Lower.clerical_pure _

theorem clerical_closeCond (skip : Site) (jump : Option Site) : (closeCond skip jump).Clerical := by
  cases jump with
  | some jump =>
    exact Lower.clerical_here.bind fun _ => (Lower.clerical_patchJump _ _).bind fun _ =>
      (Lower.clerical_patchJump _ _).bind fun _ => Lower.clerical_emitWith _ _
  | none =>
    exact Lower.clerical_here.bind fun _ => (Lower.clerical_patchJump _ _).bind fun _ =>
      Lower.clerical_emitWith _ _

/-! ### Rules for what stands between constructs -/

namespace Agrees

theorem skip_ident_ok {p : Punct} {y : Ident → Pass α} {name : Ident} {i : (f.skip p).1.After}
    (eq : (f.skip p).1.ident = (.ok name, i)) (h : Agrees total w top (y name) i.1 low r) :
    Agrees total w k (expect (.punct p) >>= fun _ => ident >>= y) f low r := by
  revert i
  cases after : f.after? (.punct p) with
  | some rest =>
    rw [Feed.skip_some after]
    intro i eq h
    exact .expect_some after fun _ _ => .ident_ok eq h
  | none =>
    rw [Feed.skip_none after]
    intro i eq
    cases eq

theorem skip_ident_error {p : Punct} {y : Ident → Pass α} {d : Diagnostic} {i : (f.skip p).1.After}
    (eq : (f.skip p).1.ident = (.error d, i)) (h : Allows w r low d) :
    Agrees total w k (expect (.punct p) >>= fun _ => ident >>= y) f low r := by
  revert i
  cases after : f.after? (.punct p) with
  | some rest =>
    rw [Feed.skip_some after]
    intro i eq
    exact .expect_some after fun _ _ => .ident_error eq h
  | none =>
    rw [Feed.skip_none after]
    intro i eq
    cases eq
    exact .expect_none (punct_ne _) after h

/-- A delimiter behind a construct. -/
theorem skip_early {p : Punct} {a : α} :
    Agrees total .early top (expect (.punct p) >>= fun _ => Pure.pure a) f (Pure.pure a) (f.skip p).1 := by
  cases after : f.after? (.punct p) with
  | some rest =>
    rw [Feed.skip_some after]
    exact .expect_some after fun _ _ => .pure trivial
  | none =>
    rw [Feed.skip_none after]
    exact .expect_none (punct_ne _) after (allows_of_clerical (Lower.clerical_pure a) rfl)

/-- A last step of lowering, and what is still to be read. -/
theorem lower_last {x : Lower Unit} [x.KeepsStaff] {y : Pass Unit} (h : Agrees total w k y f (Pure.pure ()) r) :
    Agrees total w k (OnePass.lower x >>= fun _ => y) f x r := by
  have whole : Agrees total w k (OnePass.lower x >>= fun _ => y) f (x >>= fun _ => Pure.pure ()) r :=
    lower fun _ => h
  rwa [bind_pure_unit] at whole

end Agrees

/-! ### Declarations -/

/-- Lowers a declaration that may have broken off. -/
def lowerDecl : Except Diagnostic Decl → Lower Unit
  | .ok d => Lower.decl d
  | .error d => throw d

theorem stmt_declStmt (x : Except Diagnostic Decl) : Lower.stmt (Parse.declStmt x) = lowerDecl x := by
  cases x with
  | ok d => rw [Parse.declStmt, Lower.stmt, lowerDecl]
  | error d =>
    rw [Parse.declStmt, Lower.stmt, Lower.expr]
    rfl

theorem agrees_initialValue {isConst : Bool} {init : Option Expr} {r : f.Within}
    (h : Parse.initial isConst f = (init, r)) (name : Ident) (reserved : Option Nat) (fuel : f.size * 32 + 7 ≤ n) :
    Agrees total .early top (initialValue n isConst name reserved) f (Lower.initialValue name reserved init) r.1 := by
  rw [Parse.initial] at h
  split at h
  · next rest eq =>
    split at h
    next e g he =>
    cases h
    have lt := rest.2
    have value : Agrees total .sighted 8 (expr n) rest.1 (Lower.expr e) g.1 := (exprsAgree n).expr he (by omega)
    have given : Agrees total .early top _ f (Lower.initialValue name reserved (some e)) g.1 :=
      .expect_some eq fun _ _ => .lower fun _ => value.fresh.bind_sighted fun _ _ =>
        .lower fun _ => .lower fun _ => .pure trivial
    cases isConst with
    | false => exact .check_some eq given
    | true => exact given
  · next eq =>
    cases isConst with
    | true =>
      cases h
      refine .expect_none (punct_ne .assign) eq ?_
      exact .after (clerical_valueAddress reserved) fun _ => (allows_hole (r := f) _).bind _
    | false =>
      cases h
      refine .check_none (punct_ne _) eq (fun _ => .pure trivial) ?_
      exact fun d stuck => allows_of_clerical (Lower.clerical_pure _) stuck

/-- A declaration, whose keyword comes next. -/
theorem agrees_declaration {isConst : Bool} {t : Token} {x : Except Diagnostic Decl} {r : f.After}
    (h : Parse.decl isConst f = (x, r)) (fuel : f.size * 32 + 8 ≤ n) :
    Agrees total .plain 10 (declaration isConst n) (.token t f) (lowerDecl x) r.1 := by
  obtain _ | n := n
  · omega
  rw [declaration]
  refine .within (.next_token ?_) (by decide)
  rw [Parse.decl] at h
  split at h
  · next d g hn =>
    cases h
    exact .ident_error hn (allows_throw d)
  · next name g hn =>
    refine .ident_ok hn ?_
    dsimp only at h
    split at h
    · next d g' ht =>
      cases h
      exact .skip_ident_error ht (allows_throw d)
    · next type g' ht =>
      refine .skip_ident_ok ht ?_
      generalize hi : Parse.initial isConst g'.1 = given at h
      obtain ⟨init, g''⟩ := given
      have le : g'.1.size ≤ f.size := (g.andThen ((g.1.skip .colon).andThen g')).le
      have value (reserved : Option Nat) : Agrees total .early top (initialValue n isConst name reserved) g'.1
          (Lower.initialValue name reserved init) g''.1 := agrees_initialValue hi name reserved (by omega)
      dsimp only at h
      split at h
      · next rest eq =>
        cases h
        rw [lowerDecl, Lower.decl_eq]
        refine .lower fun ty => .lower fun c => .lower fun reserved => ?_
        refine (value reserved).bind_early (fun _ => .expect_some eq fun _ _ => .lowered trivial) ?_
        intro _ d stuck
        obtain ⟨t, token, -⟩ := Feed.eats_of_after? eq
        cases token.symm.trans stuck
      · next eq =>
        cases h
        rw [lowerDecl, Lower.decl_eq]
        refine .lower fun ty => .lower fun c => .lower fun reserved => ?_
        refine (value reserved).bind_early (fun _ => .expect_none (punct_ne _) eq (allows_throw _)) ?_
        intro _ d stuck
        rw [stuck]
        exact allows_throw d

/-! ### Simple statements -/

theorem agrees_condition {e : Expr} {r : f.After} (h : Parse.expr f = (e, r)) (fuel : f.size * 32 + 8 ≤ n) :
    Agrees total .plain 9 (condition n) f (Lower.condition e) r.1 := by
  obtain _ | n := n
  · omega
  rw [condition, Lower.condition_eq]
  have value : Agrees total .sighted 8 (expr n) f (Lower.expr e) r.1 := (exprsAgree n).expr h (by omega)
  exact .within (value.bind_sighted fun _ _ => .lowered trivial) (by decide)

theorem agrees_exprStmt {s : Stmt} {r : f.After} (h : Parse.exprStmt f = (s, r)) (fuel : f.size * 32 + 7 ≤ n) :
    Agrees total .early 10 (exprStmt n) f (Lower.stmt s) r.1 := by
  rw [Parse.exprStmt] at h
  split at h
  next e g he =>
  cases h
  have value : Agrees total .sighted 8 (expr n) f (Lower.expr e) g.1 := (exprsAgree n).expr he fuel
  rw [exprStmt, Lower.stmt]
  exact (value.mono (by decide)).bind_sighted fun _ _ => .skip_early

/-- A `return` statement, whose keyword comes next. -/
theorem agrees_ret {t : Token} {value : Option Expr} {r : f.After} (keyword : t.lexeme = .keyword .returnKw)
    (h : Parse.result f = (value, r)) (fuel : f.size * 32 + 8 ≤ n) :
    Agrees total .early 10 (ret n) (.token t f) (Lower.ret t.start value) r.1 := by
  obtain _ | n := n
  · omega
  have start : (Feed.token t f).after? (.keyword .returnKw) = some (.first t f) := if_pos keyword
  rw [ret]
  refine .within (.expect_some start fun u token => ?_) (by decide)
  cases token
  rw [Parse.result] at h
  split at h
  · next rest eq =>
    cases h
    rw [Lower.ret_none]
    refine .lower fun info => .check_some eq (.lower fun _ => .lower_last ?_)
    exact .expect_some eq fun _ _ => .pure trivial
  · next eq =>
    split at h
    next e g he =>
    cases h
    have value : Agrees total .sighted 8 (expr n) f (Lower.expr e) g.1 := (exprsAgree n).expr he (by omega)
    rw [Lower.ret_some]
    refine .lower fun info => .check_none (punct_ne _) eq (fun _ => ?_) fun d stuck => ?_
    · exact .lower fun _ => value.fresh.bind_sighted fun _ _ => .lower fun _ => .lower fun _ => .lower_last .skip_early
    · exact .after (Lower.clerical_emitWith _ _) fun _ => (allows_expr_stuck (r := f) stuck he).bind _

/-! ### Blocks -/

theorem allows_block_stuck {d : Diagnostic} {b : Block} {r' : f.After} (stuck : f = .stuck d)
    (h : Parse.block f = (b, r')) : Allows w r (Lower.block b) d := by
  subst stuck
  rw [Parse.block] at h
  cases h
  rw [Lower.block]
  exact allows_throw d

theorem allows_body_stuck {d : Diagnostic} {b : Block} {r' : f.After} (stuck : f = .stuck d)
    (h : Parse.body f = (b, r')) : Allows w r (Lower.block b) d := by
  subst stuck
  rw [Parse.body] at h
  cases h
  rw [Lower.block]
  exact allows_throw d

/-- The block that starts with a brace. -/
theorem block_eq_body {t : Token} {rest : Feed} (brace : t.lexeme = .punct .lbrace) :
    Parse.block (.token t rest) = ((Parse.body rest).1, (Feed.Tail.first t rest).andThen (Parse.body rest).2) := by
  have start : (Feed.token t rest).after? (.punct .lbrace) = some (.first t rest) := if_pos brace
  rw [Parse.block, start]
  rfl

/-- With fuel `n` the routines for statements agree with parsing and lowering, if that is enough. -/
structure StmtsAgree (total : List (Except Diagnostic Token)) (n : Nat) : Prop where
  stmt {f : Feed} {s : Stmt} {r : f.After} : Parse.stmt f = (s, r) → f.size * 32 + 10 ≤ n →
    Agrees total .early 11 (stmt n) f (Lower.stmt s) r.1
  block {f : Feed} {b : Block} {r : f.After} : Parse.block f = (b, r) → f.size * 32 + 9 ≤ n →
    Agrees total .plain 10 (block n) f (Lower.block b) r.1
  moreStmts {f : Feed} {b : Block} {r : f.After} : Parse.body f = (b, r) → f.size * 32 + 11 ≤ n →
    Agrees total .plain top (do moreStmts n; let _ ← expect (.punct .rbrace)) f (Lower.block b) r.1
  cond {t : Token} {f : Feed} {c : IfChain} {r : f.After} : t.lexeme = .keyword .ifKw → Parse.ifChain f = (c, r) →
    f.size * 32 + 10 ≤ n → Agrees total .early 10 (cond n) (.token t f) (Lower.ifChain c) r.1
  loop {t : Token} {f : Feed} {c : Expr} {b : Block} {g : f.After} {r : g.1.After} : t.lexeme = .keyword .whileKw →
    Parse.expr f = (c, g) → Parse.block g.1 = (b, r) → f.size * 32 + 10 ≤ n →
    Agrees total .plain 10 (loop n) (.token t f) (Lower.stmt (.loop c b)) r.1

namespace StmtsAgree

variable (ih : StmtsAgree total n)
include ih

theorem block_succ {b : Block} {r : f.After} (h : Parse.block f = (b, r)) (fuel : f.size * 32 + 9 ≤ n + 1) :
    Agrees total .plain 10 (OnePass.block (n + 1)) f (Lower.block b) r.1 := by
  rw [OnePass.block]
  refine .within ?_ (by decide)
  rw [Parse.block] at h
  split at h
  · next rest eq =>
    split at h
    next b' r' hb =>
    cases h
    have lt := rest.2
    exact .expect_some eq fun _ _ => ih.moreStmts hb (by omega)
  · next eq =>
    cases h
    rw [Lower.block]
    exact .expect_none (punct_ne _) eq (allows_throw _)

theorem moreStmts_succ {b : Block} {r : f.After} (h : Parse.body f = (b, r)) (fuel : f.size * 32 + 11 ≤ n + 1) :
    Agrees total .plain top (do OnePass.moreStmts (n + 1); let _ ← expect (.punct .rbrace)) f (Lower.block b) r.1 := by
  rw [OnePass.moreStmts, bind_assoc]
  have stuck (d : Diagnostic) (eq : f = .stuck d) : Allows .plain r.1 (Lower.block b) d := allows_body_stuck eq h
  rw [Parse.body] at h
  split at h
  · next rest eq =>
    cases h
    rw [Lower.block]
    exact .check_some eq (.expect_some eq fun _ _ => .pure trivial)
  · next eq =>
    refine .check_none (punct_ne _) eq (fun live => ?_) stuck
    split at h
    · next zero =>
      cases f with
      | token t rest => cases zero
      | done p => cases zero
      | stuck d => exact live.elim
    · next pos =>
      split at h
      next s g hs =>
      split at h
      next b' r' hb =>
      cases h
      have le := g.2
      have first := (ih.stmt hs (by omega)).within (m := .nextStmt) (k := top) (by decide)
      rw [Lower.block]
      change Agrees total .plain top ((within .nextStmt (OnePass.stmt n) >>= fun _ => OnePass.moreStmts n) >>= _) _ _ _
      rw [bind_assoc]
      -- Where a statement has stopped early, the rest of the block is cut off.
      exact first.bind_early (fun _ => ih.moreStmts hb (by omega)) fun _ d stuck => allows_body_stuck stuck hb

theorem elsePart_succ {o : Else} {r : f.Within} (h : Parse.otherwise f = (o, r)) (fuel : f.size * 32 + 9 ≤ n) :
    Agrees total .early top (elsePart (OnePass.cond n) (OnePass.block n)) f (Lower.elsePart o) r.1 := by
  rw [elsePart]
  rw [Parse.otherwise] at h
  split at h
  · next eq =>
    cases h
    rw [Lower.elsePart]
    refine .check_none (keyword_ne _) eq (fun _ => .pure trivial) fun d stuck => ?_
    exact allows_of_clerical (Lower.clerical_pure none) stuck
  · next rest eq =>
    have lt := rest.2
    refine .check_some eq (.next_eats (Feed.eats_of_after? eq) fun _ => ?_)
    split at h
    · next start eq' =>
      split at h
      next c r' hc =>
      cases h
      have lt' := start.2
      obtain ⟨t, token, keyword⟩ := Feed.eats_of_after? eq'
      have chain := (ih.cond keyword hc (by omega)).fresh
      rw [← token] at chain
      rw [Lower.elsePart]
      refine .lower fun jump => .check_some eq' ?_
      exact chain.bind_early (fun _ => .pure trivial) fun _ d stuck =>
        allows_of_clerical (Lower.clerical_pure (some jump)) stuck
    · next eq' =>
      split at h
      next b r' hb =>
      cases h
      have other := (ih.block hb (by omega)).fresh
      rw [Lower.elsePart]
      refine .lower fun jump => .check_none (keyword_ne _) eq' (fun _ => ?_) fun d stuck => ?_
      · exact other.bind fun _ => .pure trivial
      · exact (allows_block_stuck (r := f) stuck hb).bind _

theorem cond_succ {t : Token} {c : IfChain} {r : f.After} (keyword : t.lexeme = .keyword .ifKw)
    (h : Parse.ifChain f = (c, r)) (fuel : f.size * 32 + 10 ≤ n + 1) :
    Agrees total .early 10 (OnePass.cond (n + 1)) (.token t f) (Lower.ifChain c) r.1 := by
  rw [OnePass.cond]
  have start : (Feed.token t f).after? (.keyword .ifKw) = some (.first t f) := if_pos keyword
  refine .within (.expect_some start fun _ _ => ?_) (by decide)
  rw [Parse.ifChain] at h
  split at h
  next e g he =>
  split at h
  next b g' hb =>
  split at h
  next o r' ho =>
  cases h
  have le := g.le
  have le' := g'.le
  have guard : Agrees total .plain 9 (condition n) f _ g.1 := agrees_condition he (by omega)
  rw [Lower.ifChain_eq]
  refine guard.fresh.bind fun _ => .lower fun skip => (ih.block hb (by omega)).fresh.bind fun _ => ?_
  refine (ih.elsePart_succ ho (by omega)).bind_early (fun jump => .lowered trivial) fun jump d stuck => ?_
  -- The tree does not say what is wrong behind it, so lowering goes on and patches the jumps.
  exact allows_of_clerical (clerical_closeCond skip jump) stuck

theorem loop_succ {t : Token} {c : Expr} {b : Block} {g : f.After} {r : g.1.After}
    (keyword : t.lexeme = .keyword .whileKw) (hc : Parse.expr f = (c, g)) (hb : Parse.block g.1 = (b, r))
    (fuel : f.size * 32 + 10 ≤ n + 1) :
    Agrees total .plain 10 (OnePass.loop (n + 1)) (.token t f) (Lower.stmt (.loop c b)) r.1 := by
  rw [OnePass.loop]
  have start : (Feed.token t f).after? (.keyword .whileKw) = some (.first t f) := if_pos keyword
  refine .within (.expect_some start fun _ _ => ?_) (by decide)
  have le := g.le
  have guard : Agrees total .plain 9 (condition n) f _ g.1 := agrees_condition hc (by omega)
  rw [Lower.stmt]
  refine .lower fun _ => .lower fun again => guard.fresh.bind fun _ => .lower fun leave => ?_
  exact (ih.block hb (by omega)).fresh.bind fun _ => .lower fun back => .lower fun _ => .lowered trivial

theorem stmt_succ {s : Stmt} {r : f.After} (h : Parse.stmt f = (s, r)) (fuel : f.size * 32 + 10 ≤ n + 1) :
    Agrees total .early 11 (OnePass.stmt (n + 1)) f (Lower.stmt s) r.1 := by
  rw [OnePass.stmt]
  refine .within ?_ (by decide)
  rw [Parse.stmt.eq_def] at h
  cases f with
  | stuck d =>
    refine .peek nofun fun d' stuck => ?_
    dsimp only [Parse.exprStmt] at h
    cases h
    rw [Lower.stmt]
    exact (allows_expr_stuck (r := .stuck d) stuck rfl).bind _
  | done p =>
    refine .peek (fun u head => ?_) nofun
    cases head
    exact agrees_exprStmt h (by omega)
  | token t rest =>
    refine .peek (fun u head => ?_) nofun
    cases head
    have value (h : Parse.exprStmt (.token t rest) = (s, r)) :
        Agrees total .early 10 (exprStmt n) (.token t rest) (Lower.stmt s) r.1 := agrees_exprStmt h (by omega)
    rw [Feed.size_token] at fuel
    have declared (isConst : Bool) : Agrees total .plain 10 (declaration isConst n) (.token t rest)
        (Lower.stmt (Parse.declStmt (Parse.decl isConst rest).1)) (Parse.decl isConst rest).2.1 := by
      rw [stmt_declStmt]
      exact agrees_declaration rfl (by omega)
    dsimp only at h
    generalize hl : t.lexeme = l at h ⊢
    cases l with
    | keyword keyword =>
      cases keyword with
      | letKw =>
        cases h
        exact (declared false).early
      | constKw =>
        cases h
        exact (declared true).early
      | ifKw =>
        cases h
        rw [Lower.stmt]
        exact ih.cond hl rfl (by omega)
      | whileKw =>
        cases h
        exact (ih.loop hl rfl rfl (by omega)).early
      | returnKw =>
        cases h
        rw [Lower.stmt]
        exact agrees_ret hl rfl (by omega)
      | fnKw | asKw | elseKw | breakKw | continueKw => exact value h
    | punct p =>
      dsimp only at h ⊢
      split at h
      · next brace =>
        subst brace
        cases h
        rw [Lower.stmt]
        exact (ih.block (block_eq_body hl) (by rw [Feed.size_token]; omega)).early
      · next other =>
        rw [if_neg other]
        split at h
        · next semicolon =>
          cases h
          rw [if_pos semicolon, Lower.stmt]
          exact .next_token (.pure trivial)
        · next other' =>
          rw [if_neg other']
          exact value h
    | ident _ | uint _ | double _ | string _ | char _ | endOfFile => exact value h

end StmtsAgree

/-- The routines for statements agree with parsing and lowering. -/
theorem stmtsAgree (n : Nat) : StmtsAgree total n := by
  induction n with
  | zero => constructor <;> intros <;> omega
  | succ n ih => exact ⟨ih.stmt_succ, ih.block_succ, ih.moreStmts_succ, ih.cond_succ, ih.loop_succ⟩

end OnePass

end CZero
