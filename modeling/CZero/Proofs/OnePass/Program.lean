import CZero.Proofs.OnePass.Stmt
import CZero.Proofs.Lowering.Patching

/-!
# Programs in one pass

The loop over the parts of a program is the outermost one, and it ends where the source does. Main statement
(`run_terminates`): whatever the source, a run that has fuel in proportion to its items is complete, and finds
out what analysis by way of a tree does. It never stands still: what has been entered, be it a routine or a turn
of a loop, is entered again or left only behind a token that was consumed since. It never asks for anything
behind the end of the source, and so it consumes no more tokens than there are.
-/

namespace CZero

/-! ### Trees of programs -/

namespace Lower

/-- The parameters of a function with their types. -/
def params (ps : List Param) : Lower (List (Param × Ty)) := do
  let types ← paramTypes ps
  return ps.zip types

/-- A parameter with its type. -/
def param (p : Param) : Lower (Param × Ty) := do
  let ty ← valueType p.name p.type
  return (p, ty)

theorem params_cons (p : Param) (ps : List Param) : params (p :: ps) = (do
    let first ← param p
    let rest ← params ps
    return first :: rest) := by
  rw [params, paramTypes]
  simp [params, param]

theorem fnItem_eq (f : FnItem) : fnItem f = params f.params >>= fun ps =>
    (match f.type with | .ok type => resultType type | .error d => throw d) >>= fun ret =>
    OnePass.openFunction f.name ps ret >>= fun layer => block f.body >>= fun _ =>
    OnePass.closeFunction layer ret := by
  unfold fnItem params OnePass.openFunction OnePass.closeFunction
  simp only [bind_assoc, pure_bind]
  refine bind_congr fun types => ?_
  obtain ⟨name, ps, type, body⟩ := f
  cases type with
  | error d => rfl
  | ok type =>
    simp only [List.zip_map_left]
    rfl

/-- What ends a program. -/
def finish (x : Except Diagnostic Position) : Lower Position :=
  match x with
  | .ok p => return p
  | .error d => throw d

theorem program_eq (p : Program) : program p = (items p.items >>= fun _ => finish p.finish) >>= fun last =>
    callMain >>= fun _ => return last := by
  obtain ⟨parts, last⟩ := p
  rw [program, bind_assoc]
  cases last <;> rfl

/-- Lowers a part of a program that may have broken off. -/
def part : Except Diagnostic Item → Lower Unit
  | .ok (.fn f) => fnItem f
  | .ok (.decl d) => decl d
  | .error d => throw d

end Lower

namespace OnePass

variable {α : Type} {total : List (Except Diagnostic Token)} {w : Manner} {n k : Nat} {f r : Feed} {low : Lower α}

/-! ### Parameters -/

/-- The keyword in front of a parameter, and what follows. -/
theorem agrees_constness {y : Bool → Pass α} {isConst : Bool} {start : f.Within}
    (h : Parse.constness f = (isConst, start)) (rest : Agrees total w k (y isConst) start.1 low r)
    (stuck : ∀ d, f = .stuck d → Allows w r low d) : Agrees total w k (constness >>= y) f low r := by
  rw [constness, bind_assoc]
  rw [Parse.constness] at h
  split at h
  · next g eq =>
    cases h
    refine .check_some eq ?_
    change Agrees total w k ((next >>= fun _ => Pure.pure true) >>= y) f low r
    rw [bind_assoc]
    exact .next_eats (Feed.eats_of_after? eq) fun _ => rest.fresh
  · next eq =>
    cases h
    exact .check_none (keyword_ne _) eq (fun _ => rest) stuck

theorem agrees_param {p : Param} {r : f.After} (h : Parse.param f = (.ok p, r)) :
    Agrees total .plain 2 param f (Lower.param p) r.1 := by
  rw [param]
  refine .within ?_ (by decide)
  rw [Parse.param] at h
  split at h
  next isConst start hc =>
  dsimp only at h
  split at h
  · cases h
  · next name g hn =>
    split at h
    · cases h
    · next type g' ht =>
      cases h
      refine agrees_constness hc (.ident_ok hn (.skip_ident_ok ht (.lower fun _ => .pure trivial))) ?_
      rintro d rfl
      cases hc
      cases hn

/-- A parameter that breaks off. -/
theorem agrees_param_error {y : Param × Ty → Pass α} {d : Diagnostic} {r' : f.After}
    (h : Parse.param f = (.error d, r')) (allows : Allows w r low d) : Agrees total w 2 (param >>= y) f low r := by
  rw [param]
  refine .within_bind ?_ (by decide)
  rw [bind_assoc]
  rw [Parse.param] at h
  split at h
  next isConst start hc =>
  dsimp only at h
  have stuck (d' : Diagnostic) (eq : f = .stuck d') : Allows w r low d' := by
    subst eq
    cases hc
    cases h
    exact allows
  split at h
  · next d' g hn =>
    cases h
    refine agrees_constness hc ?_ stuck
    rw [bind_assoc]
    exact .ident_error hn allows
  · next name g hn =>
    split at h
    · next d' g' ht =>
      cases h
      refine agrees_constness hc ?_ stuck
      simp only [bind_assoc]
      exact .ident_ok hn (.skip_ident_error ht allows)
    · cases h

/-- Where nothing can be read, there are no parameters. -/
theorem params_stuck {d : Diagnostic} {ps : List Param} {r : f.After} (stuck : f = .stuck d)
    (h : Parse.params f = (ps, r)) : ps = [] ∧ r.1 = .stuck d := by
  subst stuck
  rw [Parse.params] at h
  cases h
  exact ⟨rfl, rfl⟩

/-- Closing the list of parameters behind the first one. -/
theorem bind_cons_closed (x : Pass (List (Param × Ty))) (l : Lexeme) (b : Param × Ty) :
    ((x >>= fun rest => return b :: rest) >>= fun ps => expect l >>= fun _ => return ps) =
      (do let ps ← x; let _ ← expect l; return ps) >>= fun rest => return b :: rest := by
  simp only [bind_assoc, pure_bind]

theorem agrees_moreParams {ps : List Param} {r : f.After} (h : Parse.params f = (ps, r)) (fuel : f.size + 1 ≤ n) :
    Agrees total .early top (do let ps ← moreParams n; let _ ← expect (.punct .rparen); return ps) f
      (Lower.params ps) r.1 := by
  induction n generalizing f ps with
  | zero => omega
  | succ n ih =>
    rw [moreParams, bind_assoc]
    rw [Parse.params] at h
    split at h
    · next d g hp =>
      -- The tree has no parameter for this one, and its feed is stuck: the routine has found it early.
      cases h
      refine .within_bind ?_ (by decide)
      rw [bind_assoc]
      exact (agrees_param_error hp (allows_of_clerical (Lower.clerical_pure []) rfl)).mono (by decide)
    · next p g hp =>
      have first : Agrees total .plain 2 param f _ g.1 := agrees_param hp
      split at h
      · next rest eq =>
        split at h
        next ps' r' hps =>
        cases h
        have lt := rest.2
        have le := g.le
        have more := ih hps (by omega)
        have whole := first.element_more (m := .nextParam) eq Mark.nextParam.rank_lt_top
        rw [Lower.params_cons]
        refine whole.early.bind_map (fun b => ?_) fun b d stuck => ?_
        · change Agrees total .early top ((moreParams n >>= fun rest => Pure.pure (b :: rest)) >>= _) _ _ _
          rw [bind_cons_closed]
          exact more.bind_early (fun _ => .pure trivial) fun _ d stuck =>
            allows_of_clerical (Lower.clerical_pure _) stuck
        · obtain ⟨rfl, end'⟩ := params_stuck stuck hps
          exact allows_of_clerical (Lower.clerical_pure [b]) end'
      · next noComma =>
        cases h
        have last := first.element_last (m := .nextParam) noComma Mark.nextParam.rank_lt_top
        rw [Lower.params_cons]
        refine last.bind_map (fun b => ?_) fun b d stuck => ?_
        · exact .skip_early (a := [b])
        · exact allows_of_clerical (Lower.clerical_pure [b]) (Feed.skip_stuck stuck)

theorem agrees_paramList {ps : List Param} {r : f.After} (h : Parse.paramList f = (ps, r)) (fuel : f.size + 1 ≤ n) :
    Agrees total .early top (paramList n) f (Lower.params ps) r.1 := by
  rw [paramList]
  rw [Parse.paramList] at h
  split at h
  · next rest eq =>
    cases h
    exact .check_some eq (.expect_some eq fun _ _ => .pure trivial)
  · next eq =>
    refine .check_none (punct_ne _) eq (fun _ => agrees_moreParams h fuel) fun d stuck => ?_
    obtain ⟨rfl, end'⟩ := params_stuck stuck h
    exact allows_of_clerical (Lower.clerical_pure []) end'

/-! ### Parts of a program -/

theorem ident_stuck {d : Diagnostic} {x : Except Diagnostic Ident} {r : f.After} (stuck : f = .stuck d)
    (h : f.ident = (x, r)) : x = .error d := by
  subst stuck
  cases h
  rfl

/-- A function, whose keyword comes next. -/
theorem agrees_function {t : Token} {x : Except Diagnostic FnItem} {r : f.After} (keyword : t.lexeme = .keyword .fnKw)
    (h : Parse.fnItem f = (x, r)) (fuel : f.size * 32 + 12 ≤ n) :
    Agrees total .plain 13 (function n) (.token t f) (Lower.part (x.map .fn)) r.1 := by
  obtain _ | n := n
  · omega
  rw [function]
  have start : (Feed.token t f).after? (.keyword .fnKw) = some (.first t f) := if_pos keyword
  refine .within (.expect_some start fun _ _ => ?_) (by decide)
  rw [Parse.fnItem] at h
  split at h
  · next d g hn =>
    cases h
    exact .ident_error hn (allows_throw d)
  · next name g hn =>
    refine .ident_ok hn ?_
    split at h
    · next eq =>
      cases h
      exact .expect_none (punct_ne _) eq (allows_throw _)
    · next rest eq =>
      refine .expect_some eq fun _ _ => ?_
      generalize hp : Parse.paramList rest.1 = listed at h
      obtain ⟨ps, g'⟩ := listed
      dsimp only at h
      generalize ht : (g'.1.skip .arrow).1.ident = typed at h
      obtain ⟨type, g''⟩ := typed
      dsimp only at h
      generalize hb : Parse.block g''.1 = body at h
      obtain ⟨b, last⟩ := body
      cases h
      have le := g.le
      have lt := rest.2
      have le' : g''.1.size ≤ rest.1.size := (g'.andThen ((g'.1.skip .arrow).andThen g'')).le
      have params : Agrees total .early top (paramList n) rest.1 (Lower.params ps) g'.1 :=
        agrees_paramList hp (by omega)
      have block : Agrees total .plain 10 (block n) g''.1 (Lower.block b) last.1 :=
        (stmtsAgree n).block hb (by omega)
      change Agrees total .plain top _ _ (Lower.fnItem ⟨name, ps, type, b⟩) _
      rw [Lower.fnItem_eq]
      refine params.bind_early (fun given => ?_) fun given d stuck => ?_
      · cases type with
        | error d => exact .skip_ident_error ht (allows_throw_bind d _)
        | ok type =>
          refine .skip_ident_ok ht (.lower fun ret => .lower fun layer => ?_)
          exact block.fresh.bind fun _ => .lowered trivial
      · obtain rfl : type = .error d := ident_stuck (Feed.skip_stuck stuck) ht
        exact allows_throw_bind d _

/-- A declaration among the parts of a program. -/
theorem agrees_global {isConst : Bool} {t : Token} {x : Except Diagnostic Decl} {r : f.After}
    (h : Parse.decl isConst f = (x, r)) (fuel : f.size * 32 + 8 ≤ n) :
    Agrees total .plain 13 (declaration isConst n) (.token t f) (Lower.part (x.map .decl)) r.1 := by
  have same : Lower.part (x.map .decl) = lowerDecl x := by cases x <;> rfl
  rw [same]
  exact (agrees_declaration h fuel).mono (by decide)

/-- What the end of a program leaves. -/
def ending : Except Diagnostic Position → Feed
  | .ok p => .done p
  | .error d => .stuck d

/-- Parts of a program, up to what ends it. -/
def lowerParts (f : Feed) : Lower Position := do
  Lower.items (Parse.items f).1
  Lower.finish (Parse.items f).2

theorem lowerParts_ok {t : Token} {rest : Feed} {keyword : Keyword} {i : Item} {r : rest.After}
    (lexeme : t.lexeme = .keyword keyword) (h : Parse.item t keyword rest = (.ok i, r)) :
    lowerParts (.token t rest) = (Lower.part (.ok i) >>= fun _ => lowerParts r.1) ∧
      (Parse.items (.token t rest)).2 = (Parse.items r.1).2 := by
  have eq : Parse.items (.token t rest) = (i :: (Parse.items r.1).1, (Parse.items r.1).2) := by
    rw [Parse.items]
    simp only [lexeme, h]
  rw [lowerParts, eq]
  refine ⟨?_, rfl⟩
  cases i <;> simp [Lower.items, lowerParts, Lower.part]

theorem lowerParts_error {t : Token} {rest : Feed} {keyword : Keyword} {d : Diagnostic} {r : rest.After}
    (lexeme : t.lexeme = .keyword keyword) (h : Parse.item t keyword rest = (.error d, r)) :
    lowerParts (.token t rest) = throw d := by
  have eq : Parse.items (.token t rest) = ([], .error d) := by
    rw [Parse.items]
    simp only [lexeme, h]
  rw [lowerParts, eq]
  rfl

/-- One turn of the loop over the parts, and the turns behind it. -/
theorem agrees_turn {t : Token} {rest : Feed} {keyword : Keyword} {x : Pass Unit} {y : Except Diagnostic Item}
    {r : rest.After} (lexeme : t.lexeme = .keyword keyword) (h : Parse.item t keyword rest = (y, r))
    (first : Agrees total .plain 13 x (.token t rest) (Lower.part y) r.1)
    (more : Agrees total .plain top (moreParts n) r.1 (lowerParts r.1) (ending (Parse.items r.1).2)) :
    Agrees total .plain top (within .nextPart x >>= fun _ => moreParts n) (.token t rest) (lowerParts (.token t rest))
      (ending (Parse.items (.token t rest)).2) := by
  have turn : Agrees total .plain top (within .nextPart x) (.token t rest) (Lower.part y) r.1 :=
    .within first (by decide)
  cases y with
  | ok i =>
    obtain ⟨low, finish⟩ := lowerParts_ok lexeme h
    rw [low, finish]
    exact turn.bind fun _ => more
  | error d =>
    rw [lowerParts_error lexeme h]
    exact turn.cut

/-- The loop over the parts of a program, from any part on. -/
theorem agrees_moreParts (fuel : f.size * 32 + 14 ≤ n) :
    Agrees total .plain top (moreParts n) f (lowerParts f) (ending (Parse.items f).2) := by
  induction n generalizing f with
  | zero => omega
  | succ n ih =>
    rw [moreParts]
    refine .peek (fun t head => ?_) fun d stuck => ?_
    · cases f with
      | token u rest =>
        cases head
        rw [Feed.size_token] at fuel
        have more (r : rest.After) := ih (f := r.1) (by have := r.le; omega)
        refine .running fun ne => ?_
        -- Only a token that ends the source could end the loop here, and a feed has none.
        cases hl : t.lexeme with
        | endOfFile => exact absurd hl ne
        | keyword keyword =>
          cases keyword with
          | fnKw => exact agrees_turn hl rfl (agrees_function hl rfl (by omega)) (more _)
          | letKw => exact agrees_turn hl rfl (agrees_global rfl (by omega)) (more _)
          | constKw => exact agrees_turn hl rfl (agrees_global rfl (by omega)) (more _)
          | _ =>
            rw [lowerParts_error hl rfl]
            exact .stop (allows_throw _)
        | _ =>
          rw [lowerParts, Parse.items]
          simp only [hl]
          exact .stop (allows_throw _)
      | done p =>
        cases head
        rw [lowerParts, Parse.items]
        exact .pure trivial
      | stuck d => cases head
    · subst stuck
      rw [lowerParts, Parse.items]
      exact allows_throw d

theorem agrees_program (fuel : f.size * 32 + 14 ≤ n) :
    Agrees total .plain top (program n) f (Lower.program (.ofFeed f)) (ending (Parse.items f).2) := by
  rw [program, Lower.program_eq]
  exact (agrees_moreParts fuel).bind fun _ => .lower fun _ => .pure trivial

/-! ### Runs on a source -/

/-- Fuel that is enough for a source. -/
def fuelFor (source : String) : Nat :=
  32 * ((Feed.ofSource source).items.length + 1)

/-- The tokens that a run has consumed. -/
def consumed {α : Type} (ran : EStateM.Result Stop State α) : List Token :=
  (events ran).filterMap Event.taken?

theorem size_le_length_items (f : Feed) : f.size ≤ f.items.length := by
  induction f with
  | token t rest ih => exact Nat.succ_le_succ ih
  | done p => exact Nat.le_refl 1
  | stuck d => exact Nat.zero_le 1

theorem at_start (source : String) :
    State.At (Feed.ofSource source).items (.ofSource source) ⟨.ofSource source, .initial, []⟩ :=
  ⟨Lexer.holds_ofSource source, rfl, nofun, trivial, Context.isStaffed_initial⟩

/-- A run with enough fuel, together with lowering the tree of the source. -/
theorem outcome_run {source : String} {fuel : Nat} (enough : fuelFor source ≤ fuel) :
    Outcome (Feed.ofSource source).items .plain (ending (Program.ofSource source).finish) (run fuel source)
      (Lower.program (.ofSource source) .initial) := by
  have le := size_le_length_items (.ofSource source)
  rw [fuelFor] at enough
  exact agrees_program (by omega) _ (at_start source) nofun

/-- What is written down about a run ends where it has stopped. -/
theorem Outcome.events_eq {ran : EStateM.Result Stop State Position} {low : Except Diagnostic (Position × Context)}
    (h : Outcome total w r ran low) : ∃ s : State, events ran = s.log.reverse ∧ s.Stopped total := by
  cases h with
  | done at' _ _ => exact ⟨_, rfl, at'.stopped⟩
  | fault stopped _ => exact ⟨_, rfl, stopped⟩
  | late _ at' _ => exact ⟨_, rfl, at'.stopped⟩
  | early _ _ stopped => exact ⟨_, rfl, stopped⟩

/-- A run with enough fuel finds out what analysis does. -/
theorem result?_run {source : String} {fuel : Nat} (enough : fuelFor source ≤ fuel) :
    result? (run fuel source) = some (analyse source) := by
  have outcome := outcome_run enough
  cases lowered : Lower.program (.ofSource source) .initial with
  | ok result =>
    obtain ⟨finish, c⟩ := result
    have analysed : analyse source = .ok ⟨c.table, c.main, finish⟩ := by
      rw [analyse, Program.analyse, StateT.run, lowered]
      rfl
    rw [lowered] at outcome
    rw [analysed]
    generalize run fuel source = ran at outcome
    cases outcome with
    | done => rfl
    | early eq => cases eq
  | error e =>
    have analysed : analyse source = .error e := by
      rw [analyse, Program.analyse, StateT.run, lowered]
      rfl
    rw [lowered] at outcome
    rw [analysed]
    generalize run fuel source = ran at outcome
    cases outcome with
    | fault _ same =>
      obtain rfl | internal := same
      · rfl
      · -- The tree of a source gives lowering no reason to fail in this way.
        exact absurd internal ((Program.isScanned_ofSource source).isMistake analysed).not_isInternal
    | late eq => cases eq

/-- Analysis ends on every source: in one pass, with 32 units of fuel for each item of the source or more, a run
finds out what analysis does. In it each turn of a loop and each round of calls consumes a token, nothing is asked
for behind the end of the source, and so what is consumed is a beginning of the items of the source. -/
theorem run_terminates (source : String) (extra : Nat) :
    result? (run (fuelFor source + extra) source) = some (analyse source) ∧
      Advances (events (run (fuelFor source + extra) source)) ∧
      HaltsAtEnd (events (run (fuelFor source + extra) source)) ∧
      (consumed (run (fuelFor source + extra) source)).map .ok <+: (Feed.ofSource source).items ∧
      (consumed (run (fuelFor source + extra) source)).length ≤ (Feed.ofSource source).items.length := by
  have enough : fuelFor source ≤ fuelFor source + extra := Nat.le_add_right ..
  obtain ⟨s, log, stopped⟩ := (outcome_run enough).events_eq
  have tokens : (consumed (run (fuelFor source + extra) source)).map .ok <+: (Feed.ofSource source).items := by
    rw [consumed, log, filterMap_taken?_reverse]
    exact stopped.tokens
  refine ⟨result?_run enough, ?_, ?_, tokens, ?_⟩
  · rw [log]
    exact stopped.paced.advances
  · rw [log]
    exact stopped.paced.haltsAtEnd
  · have le := tokens.length_le
    rwa [List.length_map] at le

end OnePass

end CZero
