import CZero.Proofs.OnePass.Routines

/-!
# The pace of a run

Between two tokens that are consumed a run may look at the next one as often as it likes, but it cannot enter
a routine twice. The routines have ranks, and what is entered there has a smaller rank than what was entered
before it:

    nextStmt 11 > stmt 10 > expr 7 > sum 6 > term 5 > cast 4 > unary 3 > primary 1

and nothing is complete before a token is consumed in it. A log is `Paced` if it keeps to this, and if there
is no request behind the end of the source. Main statement (`Paced.advances`): in a paced log there is a token
between the beginning of a routine or of a turn of a loop and its end, and between two beginnings.
-/

namespace CZero.OnePass

/-- What is entered before a token is consumed has a smaller rank than what it is entered from. -/
def Mark.rank : Mark → Nat
  | .nextPart => 13
  | .function => 12
  | .nextStmt => 11
  | .stmt => 10
  | .block | .declaration | .cond | .loop | .ret => 9
  | .condition | .nextArg => 8
  | .expr => 7
  | .sum => 6
  | .term => 5
  | .cast => 4
  | .unary => 3
  | .nextMinus | .nextParam => 2
  | .primary | .param | .call | .assignment | .nextTerm | .nextCast => 1

/-- All ranks are smaller. -/
def top : Nat := 14

theorem Mark.rank_lt_top (m : Mark) : m.rank < top := by
  cases m <;> decide

/-- The token that an event consumes. -/
def Event.taken? : Event → Option Token
  | .asked .next (.ok t) => some t
  | _ => none

/-- The tokens that were consumed. -/
def taken (log : List Event) : List Token :=
  (log.filterMap Event.taken?).reverse

theorem taken_cons_of_none {e : Event} (h : e.taken? = none) (log : List Event) : taken (e :: log) = taken log := by
  rw [taken, List.filterMap_cons_none h, taken]

theorem taken_cons_of_some {e : Event} {t : Token} (h : e.taken? = some t) (log : List Event) :
    taken (e :: log) = taken log ++ [t] := by
  rw [taken, List.filterMap_cons_some h, List.reverse_cons, taken]

/-- The rank of what was entered last since a token was consumed. -/
def gauge : List Event → Option Nat
  | [] => none
  | .enter m :: _ => some m.rank
  | .leave _ :: log => gauge log
  | .asked .next (.ok _) :: _ => none
  | .asked .next (.error _) :: log => gauge log
  | .asked .peek _ :: log => gauge log

/-- Ranks fall until a token is consumed, nothing is complete before, and nothing is asked for behind the end
of the source. -/
def Paced : List Event → Prop
  | [] => True
  | .enter m :: log => (∀ g ∈ gauge log, m.rank < g) ∧ Paced log
  | .leave _ :: log => gauge log = none ∧ Paced log
  | .asked _ _ :: log => (∀ t ∈ taken log, t.lexeme ≠ .endOfFile) ∧ Paced log

theorem gauge_lt_top {log : List Event} {g : Nat} (h : g ∈ gauge log) : g < top := by
  fun_induction gauge log with
  | case1 | case4 => cases h
  | case2 m =>
    cases h
    exact m.rank_lt_top
  | case3 _ _ ih | case5 _ _ ih | case6 _ _ ih => exact ih h

theorem gauge_asked {log : List Event} {q : Lexer.Request} {answer : Except Diagnostic Token}
    (h : (Event.asked q answer).taken? = none) : gauge (.asked q answer :: log) = gauge log := by
  match q, answer with
  | .peek, _ => rfl
  | .next, .error _ => rfl
  | .next, .ok _ => cases h

namespace Paced

variable {log before between after : List Event} {e : Event} {m : Mark}

theorem of_append (h : Paced (after ++ log)) : Paced log := by
  induction after with
  | nil => exact h
  | cons e after ih => cases e <;> exact ih h.2

/-- Since `m` was entered nothing of its rank or more was, and none of it is complete. -/
theorem gauge_le (h : Paced (between ++ .enter m :: before)) (none : ∀ e ∈ between, e.taken? = none) :
    ∃ g, gauge (between ++ .enter m :: before) = some g ∧ g ≤ m.rank := by
  induction between with
  | nil => exact ⟨_, rfl, Nat.le_refl _⟩
  | cons e between ih =>
    obtain ⟨first, rest⟩ := List.forall_mem_cons.1 none
    cases e with
    | enter n =>
      obtain ⟨g, last, le⟩ := ih h.2 rest
      have lt : n.rank < g := h.1 g last
      exact ⟨n.rank, rfl, by omega⟩
    | leave n =>
      -- Nothing can be complete here.
      obtain ⟨g, last, le⟩ := ih h.2 rest
      cases last.symm.trans h.1
    | asked q answer =>
      obtain ⟨g, last, le⟩ := ih h.2 rest
      exact ⟨g, (gauge_asked first).trans last, le⟩

/-- Before `m` begins again, and before it is complete, a token is consumed. -/
theorem taken_between (h : Paced (after ++ e :: (between ++ .enter m :: before)))
    (again : e = .enter m ∨ e = .leave m) : ∃ t, .asked .next (.ok t) ∈ between := by
  by_contra none
  have notTaken (e : Event) (mem : e ∈ between) : e.taken? = Option.none := by
    match e, mem with
    | .asked .next (.ok t), mem => exact absurd ⟨t, mem⟩ none
    | .asked .next (.error _), _ | .asked .peek _, _ | .enter _, _ | .leave _, _ => rfl
  have paced := h.of_append
  obtain rfl | rfl := again
  · obtain ⟨g, last, le⟩ := gauge_le paced.2 notTaken
    have lt : m.rank < g := paced.1 g last
    omega
  · obtain ⟨g, last, -⟩ := gauge_le paced.2 notTaken
    cases last.symm.trans paced.1

/-- Behind the end of the source nothing is asked for. -/
theorem not_asked {t : Token} (h : Paced (after ++ .asked .next (.ok t) :: before)) (done : t.lexeme = .endOfFile)
    (q : Lexer.Request) (answer : Except Diagnostic Token) : .asked q answer ∉ after := by
  intro mem
  obtain ⟨later, earlier, rfl⟩ := List.append_of_mem mem
  rw [List.append_assoc, List.cons_append] at h
  have ended : t ∈ taken (earlier ++ .asked .next (.ok t) :: before) := by
    rw [taken, List.mem_reverse, List.mem_filterMap]
    exact ⟨_, List.mem_append_right _ (.head _), rfl⟩
  exact h.of_append.1 t ended done

end Paced

/-! ### What happened from the beginning to the end -/

/-- Between the beginning of a routine or of a turn of a loop and its end, and between two beginnings, a token is
consumed. -/
def Advances (log : List Event) : Prop :=
  ∀ m e before between after, log = before ++ .enter m :: (between ++ e :: after) → e = .enter m ∨ e = .leave m →
    ∃ t, .asked .next (.ok t) ∈ between

/-- Once the end of the source is consumed, nothing is asked for. -/
def HaltsAtEnd (log : List Event) : Prop :=
  ∀ before t after, log = before ++ .asked .next (.ok t) :: after → t.lexeme = .endOfFile →
    ∀ q answer, .asked q answer ∉ after

theorem Paced.advances {log : List Event} (h : Paced log) : Advances log.reverse := by
  intro m e before between after eq again
  have reversed : log = after.reverse ++ e :: (between.reverse ++ .enter m :: before.reverse) := by
    rw [← log.reverse_reverse, eq]
    simp
  rw [reversed] at h
  obtain ⟨t, mem⟩ := h.taken_between again
  exact ⟨t, List.mem_reverse.1 mem⟩

theorem Paced.haltsAtEnd {log : List Event} (h : Paced log) : HaltsAtEnd log.reverse := by
  intro before t after eq done q answer mem
  have reversed : log = after.reverse ++ .asked .next (.ok t) :: before.reverse := by
    rw [← log.reverse_reverse, eq]
    simp
  rw [reversed] at h
  exact h.not_asked done q answer (List.mem_reverse.2 mem)

theorem filterMap_taken?_reverse (log : List Event) : log.reverse.filterMap Event.taken? = taken log := by
  rw [taken, List.filterMap_reverse]

end CZero.OnePass
