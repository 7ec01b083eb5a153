import CZero.Proofs.Machine.Steps
import CZero.Proofs.Semantics.Integer

/-!
# Evaluation by a machine

`Sim m L n s Q r` compares a machine in state `s` with the result `r` of an evaluation.

    r has a value        some steps lead to a state in the relation `Q` with the value and the store
    r is a fault         some steps lead to an instruction with this fault
    r ran out of fuel    the machine can take at least `n` steps
    r is stuck           never

Evaluations compose by `>>=`, and runs of the machine by `Leads.trans`; `Sim.bind` says that the relation
goes along with both. So the proof that code does what an expression or a statement means follows the
equations of its evaluation, and says of each instruction only what it does to the state.
-/

namespace CZero

open State

/-- The globals hold the values of the variables that the layer declares. -/
def Layer.Agrees (L : Layer) (values : String → Int64) (g : Array Int64) : Prop :=
  ∀ x i ty isConst, (x, .var (.glob i) ty isConst) ∈ L → g[i]? = some (values x)

/-- The machine does from state `s` on what has the result `r`. -/
def Sim {α : Type} (m : Image) (L : Layer) (n : Nat) (s : State) (Q : α → Store → State → Prop)
    (r : EStateM.Result Stop Store α) : Prop :=
  match r with
  | .ok a st => ∃ k t, Leads m k s t ∧ Q a st t
  | .error (.fault e) st =>
    ∃ k t u, Leads m k s t ∧ t.Faults m e u ∧ u.console = st.console ∧ L.Agrees st.globals u.globals
  | .error .timeout _ => ∃ k t, Leads m k s t ∧ n ≤ k
  | .error .stuck _ => False

namespace Sim

variable {α β : Type} {m : Image} {L : Layer} {n k : Nat} {s t : State} {st : Store}
  {Q Q' : α → Store → State → Prop} {R : β → Store → State → Prop}

theorem pure {a : α} (h : Q a st s) : Sim m L n s Q ((Pure.pure a : Eval α) st) :=
  ⟨0, s, .refl m s, h⟩

/-- A result that some steps lead to. -/
theorem ok {a : α} (leads : Leads m k s t) (h : Q a st t) : Sim m L n s Q (.ok a st) :=
  ⟨k, t, leads, h⟩

theorem fault {e : Fault} {u : State} (h : s.Faults m e u) (console : u.console = st.console)
    (globals : L.Agrees st.globals u.globals) : Sim m L n s Q (.error (.fault e) st) :=
  ⟨0, s, u, .refl m s, h, console, globals⟩

/-- Steps before an evaluation count for it. -/
theorem after {r : EStateM.Result Stop Store α} (leads : Leads m k s t) (h : Sim m L n t Q r) :
    Sim m L (k + n) s Q r := by
  match r, h with
  | .ok a _, ⟨_, u, rest, hu⟩ => exact ⟨_, u, leads.trans rest, hu⟩
  | .error (.fault e) _, ⟨_, u, v, rest, hu⟩ => exact ⟨_, u, v, leads.trans rest, hu⟩
  | .error .timeout _, ⟨_, u, rest, le⟩ => exact ⟨_, u, leads.trans rest, Nat.add_le_add_left le k⟩

theorem mono {r : EStateM.Result Stop Store α} (h : Sim m L n s Q r) (le : k ≤ n) : Sim m L k s Q r := by
  match r, h with
  | .ok a _, h => exact h
  | .error (.fault e) _, h => exact h
  | .error .timeout _, ⟨_, u, leads, le'⟩ => exact ⟨_, u, leads, Nat.le_trans le le'⟩

theorem step {r : EStateM.Result Stop Store α} (leads : Leads m k s t) (h : Sim m L n t Q r) :
    Sim m L n s Q r :=
  (h.after leads).mono (Nat.le_add_left n k)

/-- Steps behind an evaluation. -/
theorem before {r : EStateM.Result Stop Store α} (h : Sim m L n s Q r)
    (f : ∀ a st t, Q a st t → ∃ k u, Leads m k t u ∧ Q' a st u) : Sim m L n s Q' r := by
  match r, h with
  | .ok a st, ⟨_, t, leads, ht⟩ =>
    obtain ⟨_, u, rest, hu⟩ := f a st t ht
    exact ⟨_, u, leads.trans rest, hu⟩
  | .error (.fault e) _, h => exact h
  | .error .timeout _, h => exact h

theorem imp {r : EStateM.Result Stop Store α} (h : Sim m L n s Q r)
    (f : ∀ a st t, Q a st t → Q' a st t) : Sim m L n s Q' r :=
  h.before fun a st t ht => ⟨0, t, .refl m t, f a st t ht⟩

/-- One evaluation after another. -/
theorem bind {x : Eval α} {f : α → Eval β} (h : Sim m L n s Q (x st))
    (hf : ∀ a st t, Q a st t → Sim m L n t R (f a st)) : Sim m L n s R ((x >>= f) st) := by
  change Sim m L n s R (EStateM.bind x f st)
  unfold EStateM.bind
  match x st, h with
  | .ok a st, ⟨k, u, leads, hu⟩ => exact (hf a st u hu).step leads
  | .error (.fault e) _, h => exact h
  | .error .timeout _, h => exact h

/-- A value that is needed is there. -/
theorem need {x : Eval (Option Int64)} {Q : Option Int64 → Store → State → Prop}
    (h : Sim m L n s Q (x st)) (isSome : ∀ v st t, Q v st t → v.isSome) :
    Sim m L n s (fun v => Q (some v)) (Eval.need x st) := by
  refine h.bind fun v st t hv => ?_
  obtain ⟨w, rfl⟩ := Option.isSome_iff_exists.1 (isSome v st t hv)
  exact .pure hv

/-- A loop, of which every round is at least one step. The relations say what is known before the test,
before the body, behind the loop, and of a return. -/
theorem repeats {test : Eval Bool} {body : Eval Flow} {A B C : Store → State → Prop}
    {D : Option Int64 → Store → State → Prop}
    (ht : ∀ st s, A st s → Sim m L n s (fun b st t => if b then B st t else C st t) (test st))
    (hb : ∀ st s, B st s → Sim m L n s (fun flow st t => match flow with
      | .next => ∃ u, Leads m 1 t u ∧ A st u
      | .returned v => D v st t) (body st)) {fuel : Nat} (le : fuel ≤ n) {st : Store} {s : State}
    (h : A st s) :
    Sim m L fuel s (fun flow st t => match flow with
      | .next => C st t
      | .returned v => D v st t) (Eval.repeat test body fuel st) := by
  induction fuel generalizing st s with
  | zero => exact ⟨0, s, .refl m s, Nat.le_refl 0⟩
  | succ fuel ih =>
    rw [Eval.repeat]
    refine ((ht st s h).mono le).bind fun b st t tested => ?_
    cases b with
    | false => exact .pure tested
    | true =>
      refine ((hb st t tested).mono le).bind fun flow st t ended => ?_
      cases flow with
      | returned v => exact .pure ended
      | next =>
        obtain ⟨u, leads, hu⟩ := ended
        exact ((ih (Nat.le_of_succ_le le) hu).after leads).mono (by omega)

/-- An evaluation inside of another function leaves the variables as they are. -/
theorem inside (st : Store) {x : Eval α} {locals : String → Int64}
    (h : Sim m L n s Q (x ⟨st.toWorld, locals⟩)) :
    Sim m L n s (fun a st' t => st'.locals = st.locals ∧ ∃ inner, Q a ⟨st'.toWorld, inner⟩ t)
      (Eval.ofOuter (Eval.toOuter locals x) st) := by
  unfold Eval.ofOuter Eval.toOuter
  match x ⟨st.toWorld, locals⟩, h with
  | .ok a st', ⟨k, u, leads, hu⟩ => exact ⟨k, u, leads, rfl, st'.locals, hu⟩
  | .error (.fault e) _, h => exact h
  | .error .timeout _, h => exact h

end Sim

/-! ### Outer evaluations -/

namespace Eval

variable {α β : Type}

theorem ofOuter_bind (x : Outer α) (f : α → Outer β) :
    ofOuter (x >>= f) = ofOuter x >>= fun a => ofOuter (f a) := by
  funext st
  change ofOuter (EStateM.bind x f) st = EStateM.bind (ofOuter x) _ st
  unfold EStateM.bind ofOuter
  dsimp only
  cases h : x st.toWorld <;> rfl

end Eval

end CZero
