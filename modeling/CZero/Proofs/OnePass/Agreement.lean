import CZero.Proofs.OnePass.Pace
import CZero.Proofs.OnePass.Staff

/-!
# One pass and two

Parsing makes a tree of a feed and leaves the rest of it; lowering then walks the tree. A routine that does
both at once is compared with the two. `Agrees total w k x f low r` says: routine `x`, run where feed `f` is
to come, ends as the step `low` of lowering does, and leaves the feed `r`.

The two do not find faults in the same order. A tree says what is wrong at the place where something is
missing, and now and then the routine sees it a little later or a little earlier:

    late     the tree ends with what is wrong behind the construct, and the routine has not looked there
    early    the routine has stopped at what is wrong behind the construct, which is not in its tree

In the first case the routine that comes next stops, in the second the tree that comes next says so. Faults
for which no source is to blame are left open here: lowering has none in the end.
-/

namespace CZero

namespace OnePass

/-! ### Where a run stands -/

namespace State

variable (total : List (Except Diagnostic Token))

/-- Feed `f` is to come: with the tokens that were consumed it makes up all items of the source, and the end
of the source is not among them. -/
structure At (f : Feed) (s : State) : Prop where
  holds : s.lexer.Holds f
  tokens : (taken s.log).map .ok ++ f.items = total
  running : ∀ t ∈ taken s.log, t.lexeme ≠ .endOfFile
  paced : Paced s.log
  staffed : s.context.IsStaffed

/-- A run has stopped. -/
structure Stopped (s : State) : Prop where
  tokens : (taken s.log).map .ok <+: total
  paced : Paced s.log

/-- What was entered since a token was consumed has at least rank `k`. -/
def Level (k : Nat) (s : State) : Prop :=
  ∀ g ∈ gauge s.log, k ≤ g

variable {total} {f : Feed} {s : State} {k : Nat}

theorem At.stopped (h : s.At total f) : s.Stopped total :=
  ⟨⟨f.items, h.tokens⟩, h.paced⟩

/-- Lowering does not matter to what is to come. -/
theorem At.lowered (h : s.At total f) {context : Context} (staffed : context.IsStaffed) :
    At total f { s with context } :=
  ⟨h.holds, h.tokens, h.running, h.paced, staffed⟩

theorem Level.mono (h : s.Level k) {k' : Nat} (le : k' ≤ k) : s.Level k' :=
  fun g mem => Nat.le_trans le (h g mem)

theorem Level.gauge_eq (h : s.Level top) : gauge s.log = none := by
  cases eq : gauge s.log with
  | none => rfl
  | some g =>
    have lt := gauge_lt_top (Option.mem_def.2 eq)
    have le := h g eq
    omega

theorem At.enter (h : s.At total f) (level : s.Level k) {m : Mark} (lt : m.rank < k) :
    At total f { s with log := .enter m :: s.log } :=
  ⟨h.holds, h.tokens, h.running, ⟨fun g mem => Nat.lt_of_lt_of_le lt (level g mem), h.paced⟩, h.staffed⟩

theorem At.leave (h : s.At total f) (level : s.Level top) (m : Mark) :
    At total f { s with log := .leave m :: s.log } :=
  ⟨h.holds, h.tokens, h.running, ⟨level.gauge_eq, h.paced⟩, h.staffed⟩

/-- What a request that fails leaves. -/
theorem At.asked_error {d : Diagnostic} (h : s.At total f) (q : Lexer.Request) (lexer : Lexer) :
    Stopped total { s with lexer, log := .asked q (.error d) :: s.log } := by
  have none : (Event.asked q (.error d)).taken? = none := by cases q <;> rfl
  refine ⟨?_, h.running, h.paced⟩
  rw [taken_cons_of_none none]
  exact h.stopped.tokens

end State

/-! ### Requests -/

section Requests

variable {total : List (Except Diagnostic Token)} {f rest : Feed} {s : State} {t : Token}

theorem ask_of_ok {q : Lexer.Request} (h : (s.lexer.ask q).1 = .ok t) :
    ask q s = .ok t { s with lexer := (s.lexer.ask q).2, log := .asked q (.ok t) :: s.log } := by
  unfold ask
  generalize s.lexer.ask q = asked at h ⊢
  obtain ⟨answer, lexer⟩ := asked
  cases h
  rfl

theorem ask_of_error {q : Lexer.Request} {d : Diagnostic} (h : (s.lexer.ask q).1 = .error d) :
    ask q s = .error (.fault d)
      { s with lexer := (s.lexer.ask q).2, log := .asked q (.error d) :: s.log } := by
  unfold ask
  generalize s.lexer.ask q = asked at h ⊢
  obtain ⟨answer, lexer⟩ := asked
  cases h
  rfl

/-- A request where nothing can be read. -/
theorem ask_stuck {d : Diagnostic} (h : s.At total (.stuck d)) (q : Lexer.Request) :
    ∃ s', ask q s = .error (.fault d) s' ∧ s'.Stopped total :=
  ⟨_, ask_of_error (h.holds.ask q).1, h.asked_error q _⟩

/-- The token that is to come is looked at. -/
theorem peek_of_head (h : s.At total f) (head : f.head = .ok t) :
    ∃ s', peek s = .ok t s' ∧ s'.At total f ∧ gauge s'.log = gauge s.log ∧ s'.context = s.context := by
  obtain ⟨answer, holds⟩ := h.holds.ask .peek
  refine ⟨_, ask_of_ok (answer.trans head), ⟨holds t head, ?_, ?_, ⟨h.running, h.paced⟩, h.staffed⟩, rfl, rfl⟩
  · rw [taken_cons_of_none rfl]
    exact h.tokens
  · rw [taken_cons_of_none rfl]
    exact h.running

theorem isLive_of_head (head : f.head = .ok t) : f.IsLive := by
  cases f with
  | token u rest => trivial
  | done p => trivial
  | stuck d => cases head

/-- A token of a feed is not the end of the source. -/
theorem ne_endOfFile (h : s.At total (.token t rest)) : t.lexeme ≠ .endOfFile := by
  have holds := h.holds
  generalize eq : Feed.token t rest = f at holds
  cases holds with
  | fresh none =>
    unfold Feed.ofCursor at eq
    split at eq
    · cases eq
    · split at eq
      · cases eq
      · next ne =>
        cases eq
        exact ne
  | ahead kept ne =>
    cases eq
    exact ne
  | atEnd => cases eq

/-- A token is consumed. -/
theorem next_of_token (h : s.At total (.token t rest)) :
    ∃ s', next s = .ok t s' ∧ s'.At total rest ∧ s'.Level top ∧ s'.context = s.context := by
  obtain ⟨answer, holds⟩ := h.holds.ask .next
  refine ⟨_, ask_of_ok answer, ⟨holds t rfl, ?_, ?_, ⟨h.running, h.paced⟩, h.staffed⟩, nofun, rfl⟩
  · rw [taken_cons_of_some rfl, List.map_append, List.append_assoc]
    exact h.tokens
  · rw [taken_cons_of_some rfl]
    intro u mem
    obtain mem | mem := List.mem_append.1 mem
    · exact h.running u mem
    · rw [List.mem_singleton.1 mem]
      exact ne_endOfFile h

/-- The end of the source is consumed. -/
theorem next_of_done {p : Position} (h : s.At total (.done p)) :
    ∃ s', next s = .ok ⟨.endOfFile, p, p⟩ s' ∧ s'.Stopped total := by
  obtain ⟨answer, -⟩ := h.holds.ask .next
  refine ⟨_, ask_of_ok answer, ?_, h.running, h.paced⟩
  rw [taken_cons_of_some rfl, List.map_append]
  exact ⟨[], (List.append_nil _).trans h.tokens⟩

end Requests

/-! ### Agreement -/

/-- How a construct goes together with a fault right behind it. -/
inductive Manner where
  | plain
  /-- The routine has looked at what comes behind the construct. -/
  | sighted
  | late
  | early

/-- What a construct without a fault leaves. -/
def Manner.Leaves (w : Manner) (r : Feed) : Prop :=
  match w with
  | .plain | .early => True
  | .sighted | .late => r.IsLive

variable {α β : Type} {total : List (Except Diagnostic Token)} {w : Manner} {k : Nat} {f g r : Feed}

/-- The end of a routine goes together with the end of lowering. -/
inductive Outcome (total : List (Except Diagnostic Token)) (w : Manner) (r : Feed) :
    EStateM.Result Stop State α → Except Diagnostic (α × Context) → Prop
  | done {a : α} {s : State} : s.At total r → s.Level top → w.Leaves r →
    Outcome total w r (.ok a s) (.ok (a, s.context))
  | fault {d e : Diagnostic} {s : State} : s.Stopped total → e = d ∨ e.cause.IsInternal →
    Outcome total w r (.error (.fault d) s) (.error e)
  | late {a : α} {d : Diagnostic} {s : State} : w = .late → s.At total (.stuck d) → s.Level top →
    Outcome total w r (.ok a s) (.error d)
  | early {b : α × Context} {d : Diagnostic} {s : State} : w = .early → r = .stuck d → s.Stopped total →
    Outcome total w r (.error (.fault d) s) (.ok b)

/-- Routine `x`, run where feed `f` is to come, ends as the step `low` does and leaves the feed `r`. Before it
consumes a token it enters what has a smaller rank than `k`. -/
def Agrees (total : List (Except Diagnostic Token)) (w : Manner) (k : Nat) (x : Pass α) (f : Feed) (low : Lower α)
    (r : Feed) : Prop :=
  ∀ s, s.At total f → s.Level k → Outcome total w r (x s) (low s.context)

/-- A routine that stops with fault `d` agrees with the step `low`. -/
def Allows (w : Manner) (r : Feed) (low : Lower α) (d : Diagnostic) : Prop :=
  ∀ c, match low c with
    | .ok _ => w = .early ∧ r = .stuck d
    | .error e => e = d ∨ e.cause.IsInternal

theorem Allows.outcome {low : Lower α} {d : Diagnostic} {s : State} (h : Allows w r low d) (stopped : s.Stopped total)
    (c : Context) : Outcome total w r (.error (.fault d) s) (low c) := by
  have allows := h c
  split at allows
  · next eq =>
    rw [eq]
    exact .early allows.1 allows.2 stopped
  · next eq =>
    rw [eq]
    exact .fault stopped allows

theorem allows_throw (d : Diagnostic) : Allows w r (throw d : Lower α) d :=
  fun _ => .inl rfl

/-- What would come behind a fault does not matter. -/
theorem Allows.bind {low : Lower α} {d : Diagnostic} (h : Allows .plain f low d) (next : α → Lower β) :
    Allows w r (low >>= next) d := by
  intro c
  have allows := h c
  rw [Lower.bind_apply]
  split at allows
  · cases allows.1
  · next eq =>
    rw [eq]
    exact allows

theorem allows_throw_bind (d : Diagnostic) (next : α → Lower β) : Allows w r (throw d >>= next) d :=
  (allows_throw (r := r) d).bind next

/-- A fault behind a step for which no source is to blame if it fails. -/
theorem Allows.after {low : Lower α} {d : Diagnostic} {next : α → Lower β} (h : low.Clerical)
    (allows : ∀ a, Allows w r (next a) d) : Allows w r (low >>= next) d := by
  intro c
  rw [Lower.bind_apply]
  cases eq : low c with
  | ok result => exact allows result.1 result.2
  | error e => exact .inr (h c e eq)

/-- A fault that is found too early. -/
theorem allows_of_clerical {low : Lower α} {d : Diagnostic} (h : low.Clerical) (stuck : r = .stuck d) :
    Allows .early r low d := by
  intro c
  cases eq : low c with
  | ok result => exact ⟨rfl, stuck⟩
  | error e => exact .inr (h c e eq)

/-! ### One routine after the other -/

theorem bind_apply (x : Pass α) (y : α → Pass β) (s : State) : (x >>= y) s = match x s with
    | .ok a s => y a s
    | .error e s => .error e s := by
  change EStateM.bind x y s = _
  unfold EStateM.bind
  cases x s <;> rfl

theorem note_apply (e : Event) (s : State) : note e s = .ok () { s with log := e :: s.log } :=
  rfl

/-- The routine looks at the next token before it does anything else. -/
def Looks (total : List (Except Diagnostic Token)) (x : Pass α) : Prop :=
  ∀ d s, s.At total (.stuck d) → ∃ s', x s = .error (.fault d) s' ∧ s'.Stopped total

theorem Looks.bind {x : Pass α} (h : Looks total x) (y : α → Pass β) : Looks total (x >>= y) := by
  intro d s at'
  obtain ⟨s', eq, stopped⟩ := h d s at'
  exact ⟨s', by rw [bind_apply, eq], stopped⟩

theorem looks_peek : Looks total peek :=
  fun _ _ at' => ask_stuck at' .peek

namespace Agrees

variable {γ : Type} {x : Pass α} {y : α → Pass β} {low : Lower α} {next : α → Lower β} {w' : Manner}

/-- What happens in each case when one routine comes behind the other. -/
theorem bind_of (h : Agrees total w k x f low g) (done : ∀ a, w.Leaves g → Agrees total w' top (y a) g (next a) r)
    (late : w = .late → ∀ a d s, s.At total (.stuck d) → s.Level top → Outcome total w' r (y a s) (.error d))
    (early : w = .early → ∀ a d, g = .stuck d → Allows w' r (next a) d) :
    Agrees total w' k (x >>= y) f (low >>= next) r := by
  intro s at' level
  have outcome := h s at' level
  rw [bind_apply, Lower.bind_apply]
  generalize x s = ran, low s.context = lowered at outcome
  cases outcome with
  | done at'' level' leaves => exact done _ leaves _ at'' level'
  | fault stopped same => exact .fault stopped same
  | late eq at'' level' => exact late eq _ _ _ at'' level'
  | early eq stuck stopped => exact (early eq _ _ stuck).outcome stopped _

theorem bind (h : Agrees total .plain k x f low g) (rest : ∀ a, Agrees total w' top (y a) g (next a) r) :
    Agrees total w' k (x >>= y) f (low >>= next) r :=
  h.bind_of (fun a _ => rest a) nofun nofun

theorem bind_sighted (h : Agrees total .sighted k x f low g)
    (rest : ∀ a, g.IsLive → Agrees total w' top (y a) g (next a) r) :
    Agrees total w' k (x >>= y) f (low >>= next) r :=
  h.bind_of rest nofun nofun

theorem bind_late (h : Agrees total .late k x f low g)
    (rest : ∀ a, g.IsLive → Agrees total w' top (y a) g (next a) r) (looks : ∀ a, Looks total (y a)) :
    Agrees total w' k (x >>= y) f (low >>= next) r := by
  refine h.bind_of rest (fun _ a d s at' _ => ?_) nofun
  obtain ⟨s', stops, stopped⟩ := looks a d s at'
  rw [stops]
  exact .fault stopped (.inl rfl)

theorem bind_early (h : Agrees total .early k x f low g) (rest : ∀ a, Agrees total w' top (y a) g (next a) r)
    (stuck : ∀ a d, g = .stuck d → Allows w' r (next a) d) :
    Agrees total w' k (x >>= y) f (low >>= next) r :=
  h.bind_of (fun a _ => rest a) nofun fun _ => stuck

theorem pure {a : α} (leaves : w.Leaves f) : Agrees total w top (pure a) f (pure a) f :=
  fun _ at' level => .done at' level leaves

/-- Right behind a token everything may be entered. -/
theorem fresh (h : Agrees total w k x f low r) : Agrees total w top x f low r := by
  intro s at' level
  refine h s at' fun g mem => ?_
  rw [level.gauge_eq] at mem
  cases mem

theorem mono (h : Agrees total w k x f low r) {k' : Nat} (le : k ≤ k') : Agrees total w k' x f low r :=
  fun s at' level => h s at' (level.mono le)

/-- The first routine has made something else of what lowering gives. -/
theorem bind_map {φ : β → α} {low : Lower β} {next : β → Lower γ} {y : α → Pass γ}
    (h : Agrees total .early k x f (low >>= fun b => Pure.pure (φ b)) g)
    (rest : ∀ b, Agrees total w' top (y (φ b)) g (next b) r)
    (stuck : ∀ b d, g = .stuck d → Allows w' r (next b) d) :
    Agrees total w' k (x >>= y) f (low >>= next) r := by
  intro s at' level
  have outcome := h s at' level
  rw [Lower.bind_apply] at outcome
  rw [bind_apply, Lower.bind_apply]
  generalize low s.context = lowered at outcome ⊢
  cases lowered with
  | ok result =>
    obtain ⟨b, c⟩ := result
    change Outcome total .early g (x s) (.ok (φ b, c)) at outcome
    generalize x s = ran, eq : (φ b, c) = given at outcome
    cases outcome with
    | done at'' level' _ =>
      cases eq
      exact rest b _ at'' level'
    | early _ found stopped => exact (stuck b _ found).outcome stopped c
  | error d =>
    change Outcome total .early g (x s) (.error d) at outcome
    generalize x s = ran at outcome
    cases outcome with
    | fault stopped same => exact .fault stopped same
    | late eq => cases eq

/-- A routine that has looked at what comes next leaves nothing to others. -/
theorem weaken (h : Agrees total .sighted k x f low r) (w : Manner) : Agrees total w k x f low r := by
  intro s at' level
  have outcome := h s at' level
  generalize x s = ran, low s.context = lowered at outcome
  cases outcome with
  | done at'' level' leaves =>
    refine .done at'' level' ?_
    cases w with
    | plain | early => trivial
    | sighted | late => exact leaves
  | fault stopped same => exact .fault stopped same
  | late eq => cases eq
  | early eq => cases eq

theorem early (h : Agrees total .plain k x f low r) : Agrees total .early k x f low r := by
  intro s at' level
  have outcome := h s at' level
  generalize x s = ran, low s.context = lowered at outcome
  cases outcome with
  | done at'' level' _ => exact .done at'' level' trivial
  | fault stopped same => exact .fault stopped same
  | late eq => cases eq
  | early eq => cases eq

/-- A routine that stops. -/
theorem stop {d : Diagnostic} (h : Allows w r low d) : Agrees total w k (fault d) f low r :=
  fun _ at' _ => h.outcome at'.stopped _

/-- A step of lowering that both do. -/
theorem lower {x : Lower α} [x.KeepsStaff] (h : ∀ a, Agrees total w k (y a) f (next a) r) :
    Agrees total w k (lower x >>= y) f (x >>= next) r := by
  intro s at' level
  rw [bind_apply, Lower.bind_apply, OnePass.lower]
  cases ran : x s.context with
  | ok result => exact h result.1 _ (at'.lowered (Lower.KeepsStaff.keeps at'.staffed ran).1) level
  | error d => exact .fault at'.stopped (.inl rfl)

/-- The last step of lowering. -/
theorem lowered {x : Lower α} [x.KeepsStaff] (leaves : w.Leaves f) :
    Agrees total w top (OnePass.lower x) f x f := by
  intro s at' level
  rw [OnePass.lower]
  cases ran : x s.context with
  | ok result => exact .done (at'.lowered (Lower.KeepsStaff.keeps at'.staffed ran).1) level leaves
  | error d => exact .fault at'.stopped (.inl rfl)

/-- An instruction is appended before what is wrong is found. -/
theorem emit_late (h : Agrees total .late k x f low g) (op : Opcode) :
    Agrees total .late k (x >>= fun _ => OnePass.lower (Lower.emit op)) f (low >>= fun _ => Lower.emit op) g := by
  refine h.bind_of (fun _ => .lowered) (fun _ _ d s at' level => ?_) nofun
  obtain ⟨c, emitted⟩ := Lower.emit_eq_ok at'.staffed op
  rw [OnePass.lower, emitted]
  exact .late rfl (at'.lowered (Lower.KeepsStaff.keeps at'.staffed emitted).1) level

/-- A routine that was entered and is not complete yet. -/
theorem enter {m : Mark} (h : Agrees total w m.rank x f low r) (lt : m.rank < k) :
    Agrees total w k (note (.enter m) >>= fun _ => x) f low r := by
  intro s at' level
  rw [bind_apply, note_apply]
  refine h _ (at'.enter level lt) ?_
  rintro _ ⟨⟩
  exact Nat.le_refl _

theorem within {m : Mark} (h : Agrees total w m.rank x f low r) (lt : m.rank < k) :
    Agrees total w k (within m x) f low r := by
  refine enter ?_ lt
  intro s at' level
  have outcome := h s at' level
  rw [bind_apply]
  generalize x s = ran, low s.context = lowered at outcome
  cases outcome with
  | done at'' level' leaves => exact .done (at''.leave level' m) level' leaves
  | fault stopped same => exact .fault stopped same
  | late eq at'' level' => exact .late eq (at''.leave level' m) level'
  | early eq stuck stopped => exact .early eq stuck stopped

/-- A routine may stop before it is complete. -/
theorem within_bind {m : Mark} {low : Lower β}
    (h : Agrees total w m.rank (x >>= fun a => note (.leave m) >>= fun _ => y a) f low r) (lt : m.rank < k) :
    Agrees total w k (OnePass.within m x >>= y) f low r := by
  rw [OnePass.within]
  simp only [bind_assoc, pure_bind]
  exact enter h lt

/-- What would come behind a fault does not matter. -/
theorem cut {d : Diagnostic} (h : Agrees total .plain k x f (throw d) g) :
    Agrees total w k (x >>= y) f (throw d) r := by
  intro s at' level
  have outcome := h s at' level
  rw [bind_apply]
  change Outcome total .plain g (x s) (.error d) at outcome
  generalize x s = ran at outcome
  cases outcome with
  | fault stopped same => exact .fault stopped same
  | late eq => cases eq

end Agrees

/-! ### Reading one token -/

theorem punct_ne (p : Punct) : Lexeme.punct p ≠ .endOfFile :=
  nofun

theorem keyword_ne (keyword : Keyword) : Lexeme.keyword keyword ≠ .endOfFile :=
  nofun

namespace Agrees

variable {low : Lower α} {l : Lexeme}

/-- The next token is looked at. -/
theorem peek {y : Token → Pass α} (head : ∀ t, f.head = .ok t → Agrees total w k (y t) f low r)
    (stuck : ∀ d, f = .stuck d → Allows w r low d) : Agrees total w k (peek >>= y) f low r := by
  intro s at' level
  rw [bind_apply]
  cases eq : f.head with
  | ok t =>
    obtain ⟨s', eq', at'', gauge, context⟩ := peek_of_head at' eq
    rw [eq', ← context]
    exact head t eq s' at'' (fun g mem => level g (gauge ▸ mem))
  | error d =>
    obtain rfl : f = .stuck d := by
      cases f <;> cases eq
      rfl
    obtain ⟨s', eq', stopped⟩ := looks_peek d s at'
    rw [eq']
    exact (stuck d rfl).outcome stopped _

/-- The next token is not the end of the source. -/
theorem running {x : Pass α} {t : Token} {rest : Feed}
    (h : t.lexeme ≠ .endOfFile → Agrees total w k x (.token t rest) low r) :
    Agrees total w k x (.token t rest) low r :=
  fun s at' level => h (ne_endOfFile at') s at' level

theorem next_token {y : Token → Pass α} {t : Token} {rest : Feed} (h : Agrees total w top (y t) rest low r) :
    Agrees total w k (next >>= y) (.token t rest) low r := by
  intro s at' level
  obtain ⟨s', eq, at'', level', context⟩ := next_of_token at'
  rw [bind_apply, eq, ← context]
  exact h s' at'' level'

theorem next_stuck {y : Token → Pass α} {d : Diagnostic} (h : Allows w r low d) :
    Agrees total w k (next >>= y) (.stuck d) low r := by
  intro s at' level
  obtain ⟨s', eq, stopped⟩ := ask_stuck at' .next
  rw [bind_apply, next, eq]
  exact h.outcome stopped _

/-- Where the source ends, the end is consumed, and nothing but a fault can follow. -/
theorem next_done {y : Token → Pass α} {p : Position} {d : Diagnostic}
    (fails : ∀ s, y ⟨.endOfFile, p, p⟩ s = .error (.fault d) s) (h : Allows w r low d) :
    Agrees total w k (next >>= y) (.done p) low r := by
  intro s at' level
  obtain ⟨s', eq, stopped⟩ := next_of_done at'
  rw [bind_apply, eq]
  dsimp only
  rw [fails]
  exact h.outcome stopped _

/-- A token that is known to come is consumed. -/
theorem next_eats {y : Token → Pass α} {rest : Feed} (eats : f.Eats l rest)
    (h : ∀ t, Agrees total w top (y t) rest low r) : Agrees total w k (next >>= y) f low r := by
  obtain ⟨t, rfl, -⟩ := eats
  exact next_token (h t)

/-- A turn of a loop that only consumes a token. -/
theorem within_next {m : Mark} {y : Token → Pass α} {rest : Feed} (eats : f.Eats l rest) (lt : m.rank < k)
    (h : ∀ t, Agrees total w top (y t) rest low r) :
    Agrees total w k (OnePass.within m next >>= y) f low r := by
  obtain ⟨t, rfl, -⟩ := eats
  have turn : Agrees total .plain k (OnePass.within m next) (.token t rest) (Pure.pure t) rest := by
    rw [← bind_pure next]
    exact within (next_token (pure trivial)) lt
  rw [← pure_bind t fun _ => low]
  exact turn.bind h

theorem check_bind (l : Lexeme) (y : Bool → Pass α) :
    check l >>= y = OnePass.peek >>= fun t => y (decide (t.lexeme = l)) := by
  rw [check, bind_assoc]
  rfl

theorem check_some {y : Bool → Pass α} {rest : f.Tail} (eq : f.after? l = some rest)
    (h : Agrees total w k (y true) f low r) : Agrees total w k (check l >>= y) f low r := by
  obtain ⟨t, token, lexeme⟩ := Feed.eats_of_after? eq
  rw [check_bind]
  refine peek (fun u head => ?_) (fun d stuck => by cases token.symm.trans stuck)
  rw [token] at head
  cases head
  rw [decide_eq_true lexeme]
  exact h

theorem check_none {y : Bool → Pass α} (ne : l ≠ .endOfFile) (eq : f.after? l = none)
    (h : f.IsLive → Agrees total w k (y false) f low r) (stuck : ∀ d, f = .stuck d → Allows w r low d) :
    Agrees total w k (check l >>= y) f low r := by
  rw [check_bind]
  refine peek (fun u head => ?_) stuck
  have other : u.lexeme ≠ l := by
    rintro rfl
    cases f with
    | token t rest =>
      cases head
      rw [Feed.after?, if_pos rfl] at eq
      cases eq
    | done p =>
      cases head
      exact ne rfl
    | stuck d => cases head
  have live := isLive_of_head head
  rw [decide_eq_false other]
  exact h live

theorem expect_some {y : Token → Pass α} {rest : f.Tail} (eq : f.after? l = some rest)
    (h : ∀ t, f = .token t rest.1 → Agrees total w top (y t) rest.1 low r) :
    Agrees total w k (expect l >>= y) f low r := by
  obtain ⟨t, token, lexeme⟩ := Feed.eats_of_after? eq
  have rest := h t token
  rw [token, expect, bind_assoc]
  refine next_token ?_
  rw [if_pos lexeme, pure_bind]
  exact rest

theorem expect_none {y : Token → Pass α} (ne : l ≠ .endOfFile) (eq : f.after? l = none)
    (h : Allows w r low (f.complaint [l.describe])) : Agrees total w k (expect l >>= y) f low r := by
  rw [expect, bind_assoc]
  cases f with
  | token t rest =>
    have other : t.lexeme ≠ l := by
      rintro rfl
      rw [Feed.after?, if_pos rfl] at eq
      cases eq
    refine next_token ?_
    rw [if_neg other]
    exact stop h
  | done p =>
    refine next_done (fun s => ?_) h
    rw [if_neg ne.symm]
    rfl
  | stuck d => exact next_stuck h

theorem ident_ok {y : Ident → Pass α} {name : Ident} {rest : f.After} (eq : f.ident = (.ok name, rest))
    (h : Agrees total w top (y name) rest.1 low r) : Agrees total w k (ident >>= y) f low r := by
  rw [ident, bind_assoc]
  cases f with
  | token t rest =>
    obtain ⟨lexeme, start, stop⟩ := t
    cases lexeme with
    | ident name =>
      cases eq
      exact next_token h
    | _ => cases eq
  | done p => cases eq
  | stuck d => cases eq

theorem ident_error {y : Ident → Pass α} {d : Diagnostic} {rest : f.After} (eq : f.ident = (.error d, rest))
    (h : Allows w r low d) : Agrees total w k (ident >>= y) f low r := by
  rw [ident, bind_assoc]
  cases f with
  | token t rest =>
    obtain ⟨lexeme, start, stop⟩ := t
    cases lexeme with
    | ident name => cases eq
    | _ =>
      cases eq
      exact next_token (Agrees.stop h)
  | done p =>
    cases eq
    exact next_done (fun _ => rfl) h
  | stuck d =>
    cases eq
    exact next_stuck h

theorem operator?_some {γ : Type} {pick : Punct → Option γ} {y : Option γ → Pass α} {op : γ} {rest : f.Tail}
    (eq : f.operator? pick = some (op, rest)) (h : Agrees total w k (y (some op)) f low r) :
    Agrees total w k (operator? pick >>= y) f low r := by
  obtain ⟨p, ⟨t, token, lexeme⟩, picked⟩ := Feed.eats_of_operator? eq
  rw [operator?, bind_assoc]
  refine peek (fun u head => ?_) (fun d stuck => by cases token.symm.trans stuck)
  rw [token] at head
  cases head
  rw [lexeme]
  dsimp only
  rw [pure_bind, picked]
  exact h

theorem operator?_none {γ : Type} {pick : Punct → Option γ} {y : Option γ → Pass α}
    (eq : f.operator? pick = none) (live : f.IsLive) (h : Agrees total w k (y none) f low r) :
    Agrees total w k (operator? pick >>= y) f low r := by
  rw [operator?, bind_assoc]
  refine peek (fun u head => ?_) (by rintro d rfl; exact live.elim)
  split
  · next p lexeme =>
    cases f with
    | token t rest =>
      cases head
      have none : pick p = none := by
        rw [Feed.operator?, lexeme] at eq
        exact Option.map_eq_none_iff.1 eq
      rw [pure_bind, none]
      exact h
    | done q =>
      cases head
      cases lexeme
    | stuck d => cases head
  · rw [pure_bind]
    exact h

end Agrees

end OnePass

end CZero
