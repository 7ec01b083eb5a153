import CZero.Proofs.Preservation.Program
import CZero.Proofs.Preservation.Room

/-!
# Compiled programs mean what their source means

A machine that runs the image of a source of the integer language does what the tree of the source means:

    the meaning        the run
    a result           ends with this result, with the same console and the same globals
    a fault            ends with this fault, with the same console and the same globals
    no end             exceeds every limit on the number of its steps, or has no result if none exceeds that

All of this is for runs whose stack keeps to the addresses that are reserved for it. Every run does whose
limit is small enough for the length of the source.
-/

namespace CZero

open State

/-- What a run left: how many steps it took, its console, and the variables outside of functions. -/
structure Machine.Leaves (vm : Machine) (L : Layer) (w : World) (steps : Nat) : Prop where
  steps : vm.steps.toNat = steps
  console : vm.state.console = w.console
  globals : L.Agrees w.globals vm.state.globals

/-- A run goes on behind its limit: it ends because it exceeds that, or has no result if the limit is the
largest. -/
def Machine.Exceeds (vm : Machine) (m : Image) : Prop :=
  if vm.stepLimit < noLimit then ∃ last, vm.run m = some (.error (.stepLimitExceeded vm.stepLimit), last)
  else vm.run m = none

/-- Runs with this console end like this, and leave the world like this, after a number of steps. Runs that
are allowed fewer steps exceed their limit. -/
def Image.Ends (m : Image) (L : Layer) (console : Console) (outcome : Except Fault (Option Int64))
    (w : World) : Prop :=
  ∃ steps, ∀ vm : Machine, vm.state.console = console → Roomy m vm.stepLimit.toNat (.start m console) →
    if steps ≤ vm.stepLimit.toNat then ∃ last, vm.run m = some (outcome, last) ∧ last.Leaves L w steps
    else vm.Exceeds m

/-- Runs with this console do what has this result with so much fuel. Fuel runs out only if runs take at
least as many steps. -/
def Image.Follows (m : Image) (L : Layer) (console : Console) (fuel : Nat) :
    EStateM.Result Stop World (Option Int64) → Prop
  | .ok v w => m.Ends L console (.ok v) w
  | .error (.fault e) w => m.Ends L console (.error e) w
  | .error .timeout _ =>
    ∀ vm : Machine, vm.state.console = console → Roomy m vm.stepLimit.toNat (.start m console) →
      vm.stepLimit.toNat < fuel → vm.Exceeds m
  | .error .stuck _ => False

section Runs

variable {m : Image} {L : Layer} {f : Function} {w : World} {k : Nat}

theorem Image.not_isEmpty (found : m.functions[0]? = some f) : ¬m.functions.isEmpty := by
  intro empty
  rw [List.isEmpty_iff.1 empty] at found
  cases found

/-- Steps that a run can take but is not allowed to take. -/
theorem Machine.exceeds_of_dispatched? (found : m.functions[0]? = some f) (vm : Machine) {i : Instr} {t : State}
    (next : (State.start m vm.state.console).dispatched? m vm.stepLimit.toNat = some (i, t)) : vm.Exceeds m := by
  have stops : vm.run m = _ := (vm.dispatches_of_dispatched? (Image.not_isEmpty found) next).run_eq_ite
  rw [Exceeds, stops]
  split
  · exact ⟨_, rfl⟩
  · rfl

/-- A run that ends by itself leaves what it comes to. -/
theorem Machine.exists_leaves (found : m.functions[0]? = some f) {vm : Machine} {o : Except Fault Unit} {t : State}
    (halts : Halts m (.start m vm.state.console) k o t) (le : k ≤ vm.stepLimit.toNat)
    (console : t.console = w.console) (agrees : L.Agrees w.globals t.globals) :
    ∃ last, vm.run m = some (o.map fun _ => t.stack.back?, last) ∧ last.Leaves L w k := by
  have finishes := vm.finishes_of_halts (Image.not_isEmpty found) halts
  refine ⟨_, finishes.run_eq vm.stepLimit le, ?_, console, agrees⟩
  exact UInt64.toNat_ofNat_of_lt' (Nat.lt_of_le_of_lt le vm.stepLimit.toNat_lt)

/-- A program that comes to the end of function 0 has what is on the stack then as its result. -/
theorem Image.ends_of_leads (found : m.functions[0]? = some f) {v : Option Int64} {g : Array Int64}
    (agrees : L.Agrees w.globals g) {console : Console}
    (leads : Leads m k (.start m console) (Scene.start.act.state (m.length 0) v.toList g w.console)) :
    m.Ends L console (.ok v) w := by
  refine ⟨k, fun vm eq roomy => ?_⟩
  subst eq
  obtain ⟨reach, beyond⟩ := leads _ roomy
  by_cases le : k ≤ vm.stepLimit.toNat
  · rw [if_pos le]
    have last : Halts m (Scene.start.act.state (m.length 0) v.toList g w.console) 0 (.ok ())
        ⟨v.toList.toArray, g, [], w.console⟩ := by
      refine .done ?_
      rw [fetch_of_leave rfl (Image.instr?_eq_none (Nat.le_refl _))]
      rfl
    obtain ⟨final, run, leaves⟩ := Machine.exists_leaves found ((reach le).halts last) le rfl agrees
    refine ⟨final, run.trans ?_, leaves⟩
    cases v <;> rfl
  · rw [if_neg le]
    obtain ⟨u, hu⟩ := beyond (Nat.lt_of_not_le le)
    obtain ⟨i, t, next⟩ := hu.exists_dispatched? (Nat.lt_succ_self _)
    exact vm.exceeds_of_dispatched? found next

/-- A program that comes to an instruction that fails ends with its fault. -/
theorem Image.ends_of_faults (found : m.functions[0]? = some f) {t u : State} {e : Fault}
    (faults : t.Faults m e u) (console : u.console = w.console) (agrees : L.Agrees w.globals u.globals)
    {start : Console} (leads : Leads m k (.start m start) t) : m.Ends L start (.error e) w := by
  obtain ⟨frame, callers, i, frames, instr, failed⟩ := faults
  have halts : Halts m t 1 (.error e) u := .fault (fetch_of_instr frames instr) failed
  refine ⟨k + 1, fun vm eq roomy => ?_⟩
  subst eq
  obtain ⟨reach, beyond⟩ := leads _ roomy
  by_cases le : k + 1 ≤ vm.stepLimit.toNat
  · rw [if_pos le]
    exact Machine.exists_leaves found ((reach (by omega)).halts halts) le console agrees
  · rw [if_neg le]
    by_cases eq : vm.stepLimit.toNat = k
    · -- The failing instruction itself is one too many.
      have lt : vm.stepLimit.toNat < k + 1 := by omega
      obtain ⟨j, v, next⟩ := ((reach (by omega)).halts halts).exists_dispatched? lt
      exact vm.exceeds_of_dispatched? found next
    · obtain ⟨u, hu⟩ := beyond (by omega)
      obtain ⟨j, v, next⟩ := hu.exists_dispatched? (Nat.lt_succ_self _)
      exact vm.exceeds_of_dispatched? found next

end Runs

theorem Program.Compiles.follows {p : Program} {m : Image} (h : p.Compiles m) (console : Console)
    (fuel : Nat) :
    m.Follows p.draft.outer console fuel (p.eval m.payload fuel ⟨fun _ => 0, console⟩) := by
  obtain ⟨f, found, -⟩ := h.image.start
  have sim := h.sim_program fuel console fun _ => 0
  unfold Eval.ofOuter at sim
  dsimp only at sim
  cases result : p.eval m.payload fuel ⟨fun _ => 0, console⟩ with
  | ok v w =>
    rw [result] at sim
    obtain ⟨k, _, leads, g, agrees, rfl⟩ := sim
    exact Image.ends_of_leads found agrees leads
  | error stop w =>
    rw [result] at sim
    cases stop with
    | stuck => exact sim
    | fault e =>
      obtain ⟨k, t, u, leads, faults, output, agrees⟩ := sim
      exact Image.ends_of_faults found faults output agrees leads
    | timeout =>
      obtain ⟨k, t, leads, le⟩ := sim
      intro vm eq roomy few
      subst eq
      obtain ⟨u, hu⟩ := (leads _ roomy).2 (by omega)
      obtain ⟨i, v, next⟩ := hu.exists_dispatched? (Nat.lt_succ_self _)
      exact vm.exceeds_of_dispatched? found next

end CZero
