import CZero.Proofs.Grammar.Parser
import CZero.Proofs.Grammar.Reading

/-!
# The parser reads by the grammar

Each function of the parser is a reader of its phrase: it chooses as the grammar's table does, and what
it leaves is what such a reader leaves. A tree may have several holes, and all of them hold the same
diagnostic: the one that the feed is stuck with in the end.

The proofs go along the recursion of the parser once more.
-/

namespace CZero

/-! ### The holes of a tree -/

mutual

/-- The diagnostics in the holes of an expression. -/
def Expr.faults : Expr → List Diagnostic
  | .hole d => [d]
  | .cutOff e d => e.faults ++ [d]
  | .uint _ | .double _ | .string _ | .char _ | .load _ => []
  | .assign _ e | .paren e | .neg _ e | .cast e _ => e.faults
  | .call _ as => as.faults
  | .arith _ lhs rhs | .compare _ lhs rhs => lhs.faults ++ rhs.faults

/-- The diagnostics in the holes of arguments. -/
def Args.faults : Args → List Diagnostic
  | .close => []
  | .cutOff d => [d]
  | .arg e rest => e.faults ++ rest.faults

end

theorem Expr.faults_negate (e : Expr) : e.negate.faults = e.faults := by
  cases e <;> rfl

/-- The diagnostic of a part that is missing. -/
def missing {α : Type} : Except Diagnostic α → List Diagnostic
  | .ok _ => []
  | .error d => [d]

/-- The diagnostics in the holes of an optional expression. -/
def optionalFaults : Option Expr → List Diagnostic
  | none => []
  | some e => e.faults

/-- The diagnostics in the holes of a declaration. -/
def Decl.faults (d : Decl) : List Diagnostic :=
  optionalFaults d.init ++ d.cutOff.toList

mutual

/-- The diagnostics in the holes of a statement. -/
def Stmt.faults : Stmt → List Diagnostic
  | .decl d => d.faults
  | .cond c => c.faults
  | .loop e b => e.faults ++ b.faults
  | .ret _ value => optionalFaults value
  | .block b => b.faults
  | .empty => []
  | .expr e => e.faults

/-- The diagnostics in the holes of a block. -/
def Block.faults : Block → List Diagnostic
  | .close => []
  | .cutOff d => [d]
  | .stmt s rest => s.faults ++ rest.faults

/-- The diagnostics in the holes of a conditional statement. -/
def IfChain.faults : IfChain → List Diagnostic
  | .mk e b o => e.faults ++ (b.faults ++ o.faults)

/-- The diagnostics in the holes of what follows a conditional block. -/
def Else.faults : Else → List Diagnostic
  | .absent => []
  | .block b => b.faults
  | .chain c => c.faults

end

/-- The diagnostics in the holes of a part of a program. -/
def Item.faults : Item → List Diagnostic
  | .fn f => missing f.type ++ f.body.faults
  | .decl d => d.faults

/-- The diagnostics in the holes of a program. -/
def Program.faults (p : Program) : List Diagnostic :=
  p.items.flatMap Item.faults ++ missing p.finish

/-! ### The next token -/

namespace Feed

variable {f g : Feed} {l : Lexeme}

theorem Eats.next (h : f.Eats l g) : f.next = l.kind := by
  obtain ⟨t, rfl, rfl⟩ := h
  rfl

/-- A letter that stands for one lexeme only does not come if that lexeme does not. -/
theorem next_ne_of_after? {a : Kind} (h : f.after? l = none) (only : ∀ l' : Lexeme, l'.kind = some a → l' = l) :
    f.next ≠ some a := by
  cases f with
  | token t rest =>
    simp only [after?, ite_eq_right_iff, reduceCtorEq, imp_false] at h
    exact fun kind => h (only t.lexeme kind)
  | done p | stuck d => rintro ⟨⟩

theorem next_ne_punct {p : Punct} (h : f.after? (.punct p) = none) : f.next ≠ some (.punct p) :=
  next_ne_of_after? h fun l kind => by cases l <;> cases kind; rfl

theorem next_ne_keyword {k : Keyword} (h : f.after? (.keyword k) = none) : f.next ≠ some (.keyword k) :=
  next_ne_of_after? h fun l kind => by cases l <;> cases kind; rfl

theorem next_of_operator? {α : Type} {pick : Punct → Option α} (h : f.operator? pick = none) {p : Punct}
    (hp : f.next = some (.punct p)) : pick p = none := by
  cases f with
  | token t rest =>
    obtain ⟨l, start, stop⟩ := t
    cases l <;> simp_all [Feed.next, Lexeme.kind, operator?]
  | done p => cases hp
  | stuck d => cases hp

end Feed

namespace Grammar

open ContextFreeRule (Form)

open Parse

variable {X : Phrase} {α β γ : Form Kind Phrase} {a : Kind} {f g r : Feed} {ds ds' : List Diagnostic}
  {l : Lexeme} {k : Option Kind}

namespace Phrase

/-- The last alternative is chosen if the next token asks for no other. -/
theorem select_last (others : List (Form Kind Phrase)) (split : X.alternatives = others ++ [β])
    (unfit : ∀ γ ∈ others, fits k γ = false) : X.select k = β := by
  have none : others.find? (fits k) = none :=
    List.find?_eq_none.2 fun γ mem => Bool.eq_false_iff.1 (unfit γ mem)
  rw [select, split, List.find?_append, none, Option.none_or, List.getLastD_concat, List.find?_singleton]
  split <;> rfl

/-- Of two alternatives. -/
theorem select_second (two : X.alternatives = [.terminal a :: γ, β]) (ne : k ≠ some a) : X.select k = β := by
  refine select_last [.terminal a :: γ] two fun δ mem => ?_
  rw [List.mem_singleton.1 mem]
  exact decide_eq_false ne

/-- The phrase goes on behind each operator that `pick` knows, and may stand for nothing. -/
def IsOption {α : Type} (X : Phrase) (pick : Punct → Option α) (γ : Form Kind Phrase) : Prop :=
  ∃ ps : List Punct, X.alternatives = (ps.map fun p => .terminal (.punct p) :: γ) ++ [[]] ∧
    ∀ p, (pick p).isSome ↔ p ∈ ps

theorem IsOption.select {α : Type} {pick : Punct → Option α} (h : X.IsOption pick γ) {p : Punct}
    (hp : (pick p).isSome) : X.select (some (.punct p)) = .terminal (.punct p) :: γ := by
  obtain ⟨ps, alternatives, known⟩ := h
  refine X.select_of_lead X.mem_all _ ?_ _ (.head _)
  rw [alternatives]
  exact List.mem_append_left _ (List.mem_map.2 ⟨p, (known p).1 hp, rfl⟩)

theorem IsOption.select_nil {α : Type} {pick : Punct → Option α} (h : X.IsOption pick γ)
    (none : f.operator? pick = none) : X.select f.next = [] := by
  obtain ⟨ps, alternatives, known⟩ := h
  refine select_last _ alternatives fun δ mem => ?_
  obtain ⟨p, hp, rfl⟩ := List.mem_map.1 mem
  refine decide_eq_false fun eq => ?_
  replace hp := (known p).2 hp
  rw [Feed.next_of_operator? none eq] at hp
  cases hp

theorem isOption_comparison : comparison.IsOption CompareOp.ofPunct? [.nonterminal sum] :=
  ⟨[.eq, .ne, .lt, .gt, .le, .ge], rfl, fun p => by cases p <;> decide⟩

theorem isOption_moreTerms : moreTerms.IsOption ArithOp.ofSum? [.nonterminal term, .nonterminal moreTerms] :=
  ⟨[.plus, .minus], rfl, fun p => by cases p <;> decide⟩

theorem isOption_moreFactors :
    moreFactors.IsOption ArithOp.ofTerm? [.nonterminal cast, .nonterminal moreFactors] :=
  ⟨[.star, .slash], rfl, fun p => by cases p <;> decide⟩

end Phrase

/-! ### Reading that keeps track of holes -/

/-- A reader of the form `α` leaves `r`, and `r` is stuck with each diagnostic of `ds`. -/
structure Descends (α : Form Kind Phrase) (f r : Feed) (ds : List Diagnostic) : Prop where
  follows : Follows α f r
  faults : ∀ d ∈ ds, r = .stuck d

/-- A letter that is not there any more. -/
theorem follows_stuck {d : Diagnostic} : Follows (.terminal a :: α) (.stuck d) (.stuck d) :=
  .refuse (f := .stuck d) [] nofun

theorem Follows.descends (h : Follows α f r) : Descends α f r [] :=
  ⟨h, nofun⟩

/-- A hole where the feed is stuck. -/
theorem Follows.hole {d : Diagnostic} (h : Follows α f (.stuck d)) : Descends α f (.stuck d) [d] :=
  ⟨h, fun d' mem => by rw [List.mem_singleton.1 mem]⟩

namespace Descends

theorem nil : Descends [] f f [] :=
  ⟨.nil, nofun⟩

theorem append (h : Descends α f g ds) (h' : Descends β g r ds') : Descends (α ++ β) f r (ds ++ ds') := by
  refine ⟨h.follows.append h'.follows, fun d mem => ?_⟩
  obtain mem | mem := List.mem_append.1 mem
  · exact (h.faults d mem ▸ h'.follows).eq_of_stuck
  · exact h'.faults d mem

/-- What comes behind has no holes. -/
theorem append_of_nil (h : Descends α f g ds) (h' : Descends β g r []) : Descends (α ++ β) f r ds := by
  rw [← List.append_nil ds]
  exact h.append h'

theorem mono (h : Descends α f r ds) (sub : ds' ⊆ ds) : Descends α f r ds' :=
  ⟨h.follows, fun d mem => h.faults d (sub mem)⟩

theorem rule (eq : X.select f.next = β) (h : Descends β f r ds) : Descends [.nonterminal X] f r ds := by
  refine ⟨.rule ?_, h.faults⟩
  rw [eq, List.append_nil]
  exact h.follows

theorem letter (eats : f.Eats l g) (kind : l.kind = some a) : Descends [.terminal a] f g [] := by
  obtain ⟨t, rfl, rfl⟩ := eats
  exact ⟨.letter kind .nil, nofun⟩

theorem refuse (ne : f.next ≠ some a) (expected : List String) :
    Descends (.terminal a :: α) f (.stuck (f.complaint expected)) [f.complaint expected] :=
  (Follows.refuse expected ne).hole

/-- What was to come after the reader was stuck. -/
theorem cut {d : Diagnostic} (h : Descends α f r ds) (mem : d ∈ ds)
    (rest : Follows β (.stuck d) (.stuck d)) : Descends (α ++ β) f r ds := by
  have stuck := h.faults d mem
  subst stuck
  exact ⟨h.follows.append rest, h.faults⟩

/-- An alternative that starts with the next token. -/
theorem take (eq : X.select (some a) = .terminal a :: γ) (eats : f.Eats l g) (kind : l.kind = some a)
    (h : Descends γ g r ds) : Descends [.nonterminal X] f r ds :=
  rule ((congrArg X.select (eats.next.trans kind)).trans eq) ((letter eats kind).append h)

end Descends

theorem descends_skip (p : Punct) (f : Feed) : Descends [.terminal (.punct p)] f (f.skip p).1 [] := by
  unfold Feed.skip
  cases eq : f.after? (.punct p) with
  | some rest => exact .letter (Feed.eats_of_after? eq) rfl
  | none => exact (Descends.refuse (Feed.next_ne_punct eq) _).mono (List.nil_subset _)

theorem descends_ident {x : Except Diagnostic Ident} {r : f.After} (h : f.ident = (x, r)) :
    Descends [.terminal .ident] f r.1 (missing x) := by
  have refused (ne : f.next ≠ some .ident) (h : Feed.ident.noIdent f = (x, r)) :
      Descends [.terminal .ident] f r.1 (missing x) := by
    cases h
    exact .refuse ne _
  cases f with
  | token t rest =>
    obtain ⟨l, start, stop⟩ := t
    cases l with
    | ident name =>
      cases h
      exact .letter ⟨_, rfl, rfl⟩ rfl
    | _ => exact refused nofun h
  | done p => exact refused nofun h
  | stuck d => exact refused nofun h

theorem Descends.operator {α : Type} {pick : Punct → Option α} {op : α} {rest : f.Tail}
    (option : X.IsOption pick γ) (eq : f.operator? pick = some (op, rest)) (h : Descends γ rest.1 r ds) :
    Descends [.nonterminal X] f r ds := by
  obtain ⟨p, eats, hp⟩ := Feed.eats_of_operator? eq
  exact .take (option.select (hp ▸ rfl)) eats rfl h

/-- A reader of `X` leaves `r`. The operand that it goes on from has the holes `ds`, what it makes of it
has the holes `ds'`, and a feed that was stuck with the former is stuck with the latter. -/
structure Continues (X : Phrase) (f r : Feed) (ds ds' : List Diagnostic) : Prop where
  follows : Follows [.nonterminal X] f r
  faults : (∀ d ∈ ds, f = .stuck d) → ∀ d ∈ ds', r = .stuck d

theorem Continues.stop {α : Type} {pick : Punct → Option α} (option : X.IsOption pick γ)
    (none : f.operator? pick = none) : Continues X f f ds ds :=
  ⟨(Descends.rule (option.select_nil none) .nil).follows, id⟩

/-- One more operator and its operand. -/
theorem Continues.operator {α : Type} {pick : Punct → Option α} {op : α} {rest : f.Tail} {Y : Phrase}
    {ds'' : List Diagnostic} (option : X.IsOption pick [.nonterminal Y, .nonterminal X])
    (eq : f.operator? pick = some (op, rest)) (operand : Descends [.nonterminal Y] rest.1 g ds')
    (h : Continues X g r (ds ++ ds') ds'') : Continues X f r ds ds'' := by
  refine ⟨(Descends.operator option eq (operand.append h.follows.descends)).follows, fun before => ?_⟩
  obtain ⟨p, eats, -⟩ := Feed.eats_of_operator? eq
  have stuck : Descends [] f f ds := ⟨.nil, before⟩
  exact h.faults (stuck.append ((Descends.letter eats rfl).append operand)).faults

theorem Descends.continue (h : Descends α f g ds) (tail : Continues X g r ds ds') :
    Descends (α ++ [.nonterminal X]) f r ds' :=
  ⟨h.follows.append tail.follows, tail.faults h.faults⟩

/-! ### Expressions -/

theorem descends_followed {e : Expr} (h : Descends α f r e.faults) : Descends α f r (followed e r).faults := by
  cases r with
  | token t rest => exact h
  | done p => exact h
  | stuck d =>
    refine ⟨h.follows, fun d' mem => ?_⟩
    obtain mem | mem := List.mem_append.1 mem
    · exact h.faults d' mem
    · rw [List.mem_singleton.1 mem]

theorem descends_loaded {x : Ident} (noAssign : f.next ≠ some (.punct .assign))
    (noParen : f.next ≠ some (.punct .lparen)) : Descends [.nonterminal .access] f f (loaded x f).faults := by
  have select : Phrase.access.select f.next = [] := by
    refine Phrase.select_last (Phrase.access.alternatives.take 2) rfl ?_
    exact List.forall_mem_cons.2 ⟨decide_eq_false noAssign, List.forall_mem_cons.2 ⟨decide_eq_false noParen, nofun⟩⟩
  refine .rule select ?_
  cases f with
  | token t rest => exact .nil
  | done p => exact .nil
  | stuck d => exact Follows.nil.hole

theorem descends_noExpr {e : Expr} {r : f.After} (h : noExpr f = (e, r))
    (select : Phrase.primary.select f.next =
      [.terminal (.punct .lparen), .nonterminal .expr, .terminal (.punct .rparen)])
    (ne : f.next ≠ some (.punct .lparen)) : Descends [.nonterminal .primary] f r.1 e.faults := by
  cases h
  exact .rule select (.refuse ne _)

mutual

theorem descends_expr {f : Feed} {e : Expr} {r : f.After} (h : expr f = (e, r)) :
    Descends [.nonterminal .expr] f r.1 e.faults := by
  rw [expr] at h
  split at h
  next lhs g hs =>
  have left := descends_sum hs
  split at h
  · next op rest eq =>
    split at h
    next rhs r' hs' =>
    cases h
    have lt := rest.2
    have le := g.le
    exact .rule rfl (left.append (.operator Phrase.isOption_comparison eq (descends_sum hs')))
  · next eq =>
    cases h
    have tail : Descends [.nonterminal .comparison] r.1 r.1 [] :=
      .rule (Phrase.isOption_comparison.select_nil eq) .nil
    exact .rule rfl (left.append_of_nil tail)
termination_by f.size * 8 + 6
decreasing_by all_goals omega

theorem descends_sum {f : Feed} {e : Expr} {r : f.After} (h : sum f = (e, r)) :
    Descends [.nonterminal .sum] f r.1 e.faults := by
  rw [sum] at h
  split at h
  next lhs g ht =>
  split at h
  next e' r' hs =>
  cases h
  have le := g.le
  have left := descends_term ht
  exact .rule rfl (left.continue (continues_sumTail hs))
termination_by f.size * 8 + 5
decreasing_by all_goals omega

theorem continues_sumTail {lhs : Expr} {f : Feed} {e : Expr} {r : f.Within} (h : sumTail lhs f = (e, r)) :
    Continues .moreTerms f r.1 lhs.faults e.faults := by
  rw [sumTail] at h
  split at h
  · next op rest eq =>
    split at h
    next rhs g ht =>
    split at h
    next e' r' hs =>
    cases h
    have lt := rest.2
    have le := g.le
    exact .operator Phrase.isOption_moreTerms eq (descends_term ht) (continues_sumTail hs)
  · next eq =>
    cases h
    exact .stop Phrase.isOption_moreTerms eq
termination_by f.size * 8
decreasing_by all_goals omega

theorem descends_term {f : Feed} {e : Expr} {r : f.After} (h : term f = (e, r)) :
    Descends [.nonterminal .term] f r.1 e.faults := by
  rw [term] at h
  split at h
  next lhs g hc =>
  split at h
  next e' r' ht =>
  cases h
  have le := g.le
  have left := descends_cast hc
  exact .rule rfl (left.continue (continues_termTail ht))
termination_by f.size * 8 + 4
decreasing_by all_goals omega

theorem continues_termTail {lhs : Expr} {f : Feed} {e : Expr} {r : f.Within} (h : termTail lhs f = (e, r)) :
    Continues .moreFactors f r.1 lhs.faults e.faults := by
  rw [termTail] at h
  split at h
  · next op rest eq =>
    split at h
    next rhs g hc =>
    split at h
    next e' r' ht =>
    cases h
    have lt := rest.2
    have le := g.le
    exact .operator Phrase.isOption_moreFactors eq (descends_cast hc) (continues_termTail ht)
  · next eq =>
    cases h
    exact .stop Phrase.isOption_moreFactors eq
termination_by f.size * 8
decreasing_by all_goals omega

theorem descends_cast {f : Feed} {e : Expr} {r : f.After} (h : cast f = (e, r)) :
    Descends [.nonterminal .cast] f r.1 e.faults := by
  rw [Parse.cast] at h
  split at h
  next operand g hu =>
  have left := descends_unary hu
  split at h
  · next rest eq =>
    have eats := Feed.eats_of_after? eq
    split at h
    · next type r' hi =>
      cases h
      have tail : Descends [.nonterminal .castType] g.1 r'.1 [] := .take rfl eats rfl (descends_ident hi)
      exact .rule rfl (descends_followed (left.append_of_nil tail))
    · next d r' hi =>
      cases h
      have name := descends_ident hi
      obtain stuck : r'.1 = .stuck d := name.faults d (.head _)
      have tail : Descends [.nonterminal .castType] g.1 (.stuck d) [d] :=
        .take rfl eats rfl (stuck ▸ name)
      exact .rule rfl (left.append tail)
  · next eq =>
    cases h
    have tail : Descends [.nonterminal .castType] r.1 r.1 [] :=
      .rule (Phrase.select_second rfl (Feed.next_ne_keyword eq)) .nil
    exact .rule rfl (descends_followed (left.append_of_nil tail))
termination_by f.size * 8 + 3
decreasing_by all_goals omega

theorem descends_unary {f : Feed} {e : Expr} {r : f.After} (h : unary f = (e, r)) :
    Descends [.nonterminal .unary] f r.1 e.faults := by
  rw [unary] at h
  split at h
  · next rest eq =>
    split at h
    next operand g hu =>
    cases h
    have lt := rest.2
    have inner := descends_unary hu
    rw [Expr.faults_negate]
    exact .take rfl (Feed.eats_of_after? eq) rfl inner
  · next eq => exact .rule (Phrase.select_second rfl (Feed.next_ne_punct eq)) (descends_primary h)
termination_by f.size * 8 + 2
decreasing_by all_goals omega

theorem descends_primary {f : Feed} {e : Expr} {r : f.After} (h : primary f = (e, r)) :
    Descends [.nonterminal .primary] f r.1 e.faults := by
  match f, r, h with
  | .token t rest, r, h =>
    rw [primary.eq_def] at h
    dsimp only at h
    split at h
    · next value hl =>
      cases h
      exact .take rfl ⟨t, rfl, hl⟩ rfl .nil
    · next value hl =>
      cases h
      exact .take rfl ⟨t, rfl, hl⟩ rfl .nil
    · next text hl =>
      cases h
      exact .take rfl ⟨t, rfl, hl⟩ rfl .nil
    · next c hl =>
      cases h
      exact .take rfl ⟨t, rfl, hl⟩ rfl .nil
    · next name hl =>
      refine .take rfl ⟨t, rfl, hl⟩ rfl ?_
      split at h
      · next g hg =>
        refine .take rfl (Feed.eats_of_after? hg) rfl ?_
        split at h
        · next r' hr =>
          cases h
          exact .take rfl (Feed.eats_of_after? hr) rfl .nil
        · next noParen =>
          cases h
          have lt := g.2
          exact .rule (Phrase.select_second rfl (Feed.next_ne_punct noParen)) (descends_args rfl)
      · next noParen =>
        split at h
        · next g hg =>
          cases h
          have lt := g.2
          have value : Descends [.nonterminal .expr] g.1 _ _ := descends_expr rfl
          exact .take rfl (Feed.eats_of_after? hg) rfl value
        · next noAssign =>
          cases h
          exact descends_loaded (Feed.next_ne_punct noAssign) (Feed.next_ne_punct noParen)
    · next p hl =>
      split at h
      · next paren =>
        subst paren
        refine .take rfl ⟨t, rfl, hl⟩ rfl ?_
        split at h
        · next r' hr =>
          cases h
          exact (descends_expr rfl).append_of_nil (.letter (Feed.eats_of_after? hr) rfl)
        · next noParen =>
          cases h
          exact (descends_expr rfl).append (.refuse (Feed.next_ne_punct noParen) _)
      · next paren =>
        have next : (Feed.token t rest).next = some (.punct p) := congrArg Lexeme.kind hl
        refine descends_noExpr h ?_ ?_
        · rw [next]
          cases p <;> rfl
        · rw [next]
          rintro ⟨⟩
          exact paren rfl
    · next k hl =>
      have next : (Feed.token t rest).next = some (.keyword k) := congrArg Lexeme.kind hl
      exact descends_noExpr h (next ▸ rfl) (next ▸ nofun)
    · next hl =>
      have next : (Feed.token t rest).next = none := congrArg Lexeme.kind hl
      exact descends_noExpr h (next ▸ rfl) (next ▸ nofun)
  | .done p, r, h =>
    rw [primary.eq_def] at h
    exact descends_noExpr h rfl nofun
  | .stuck d, r, h =>
    rw [primary.eq_def] at h
    exact descends_noExpr h rfl nofun
termination_by f.size * 8 + 1
decreasing_by all_goals (simp only [Feed.size_token]; omega)

/-- One or more arguments: their list is not closed at once. -/
theorem descends_args {f : Feed} {as : Args} {r : f.After} (h : args f = (as, r)) :
    Descends [.nonterminal .expr, .nonterminal .moreArgs] f r.1 as.faults := by
  rw [args] at h
  split at h
  next e g he =>
  have first := descends_expr he
  split at h
  · next rest eq =>
    split at h
    next more r' ha =>
    cases h
    have lt := rest.2
    have le := g.le
    exact first.append (.take rfl (Feed.eats_of_after? eq) rfl (descends_args ha))
  · next noComma =>
    have select : Phrase.moreArgs.select g.1.next = [.terminal (.punct .rparen)] :=
      Phrase.select_second rfl (Feed.next_ne_punct noComma)
    split at h
    · next rest eq =>
      cases h
      exact first.append (.rule select (.letter (Feed.eats_of_after? eq) rfl))
    · next noParen =>
      cases h
      exact first.append (.rule select (.refuse (Feed.next_ne_punct noParen) _))
termination_by f.size * 8 + 7
decreasing_by all_goals omega

end

/-! ### Declarations and statements -/

/-- What comes behind the type of a declaration. -/
def initForm : Bool → Form Kind Phrase
  | true => [.terminal (.punct .assign), .nonterminal .expr]
  | false => [.nonterminal .init]

/-- A declaration after its keyword. -/
def declPhrase : Bool → Phrase
  | true => .constRest
  | false => .letRest

theorem select_declPhrase (isConst : Bool) (k : Option Kind) : (declPhrase isConst).select k =
    [.terminal .ident] ++ ([.terminal (.punct .colon)] ++ ([.terminal .ident] ++
      (initForm isConst ++ [.terminal (.punct .semicolon)]))) := by
  cases isConst <;> exact Phrase.select_last [] rfl nofun

theorem descends_initial {isConst : Bool} {init : Option Expr} {r : f.Within}
    (h : initial isConst f = (init, r)) : Descends (initForm isConst) f r.1 (optionalFaults init) := by
  rw [initial] at h
  split at h
  · next rest eq =>
    cases h
    have value : Descends [.nonterminal .expr] rest.1 _ _ := descends_expr rfl
    cases isConst with
    | true => exact (Descends.letter (Feed.eats_of_after? eq) rfl).append value
    | false => exact .take rfl (Feed.eats_of_after? eq) rfl value
  · next eq =>
    have ne := Feed.next_ne_punct eq
    split at h
    · next const =>
      cases h
      subst const
      exact .refuse ne _
    · next const =>
      cases h
      rw [Bool.not_eq_true] at const
      subst const
      exact .rule (Phrase.select_second rfl ne) .nil

theorem descends_decl (isConst : Bool) {x : Except Diagnostic Decl} {r : f.After}
    (h : decl isConst f = (x, r)) : Descends [.nonterminal (declPhrase isConst)] f r.1 (declStmt x).faults := by
  refine .rule (select_declPhrase ..) ?_
  rw [decl] at h
  split at h
  · next d r' hx =>
    cases h
    exact (descends_ident hx).cut (.head _) follows_stuck
  next x g hx =>
  have name := descends_ident hx
  dsimp only at h
  have colon := descends_skip .colon g.1
  split at h
  · next d r' ht =>
    cases h
    have rest : Follows (initForm isConst ++ [.terminal (.punct .semicolon)]) (.stuck d) (.stuck d) := by
      cases isConst with
      | true => exact follows_stuck
      | false => exact .rule follows_stuck
    exact name.append (colon.append ((descends_ident ht).cut (.head _) rest))
  next type i ht =>
  have type := descends_ident ht
  have init : Descends (initForm isConst) i.1 _ _ := descends_initial rfl
  split at h
  · next rest hs =>
    cases h
    exact name.append (colon.append (type.append (init.append (.letter (Feed.eats_of_after? hs) rfl))))
  · next noSemicolon =>
    cases h
    exact name.append (colon.append (type.append (init.append (.refuse (Feed.next_ne_punct noSemicolon) _))))

theorem descends_exprStmt {s : Stmt} {r : f.After} (h : exprStmt f = (s, r))
    (select : Phrase.stmt.select f.next = [.nonterminal .expr, .terminal (.punct .semicolon)]) :
    Descends [.nonterminal .stmt] f r.1 s.faults := by
  cases h
  have value : Descends [.nonterminal .expr] f _ _ := descends_expr rfl
  exact .rule select (value.append_of_nil (descends_skip ..))

theorem descends_result (f : Feed) :
    Descends [.nonterminal .result] f (result f).2.1 (optionalFaults (result f).1) := by
  unfold result
  cases eq : f.after? (.punct .semicolon) with
  | some rest => exact .take rfl (Feed.eats_of_after? eq) rfl .nil
  | none =>
    have value : Descends [.nonterminal .expr] f _ _ := descends_expr rfl
    exact .rule (Phrase.select_second rfl (Feed.next_ne_punct eq)) (value.append_of_nil (descends_skip ..))

/-- Where nothing can be read, a block is looked for in vain. -/
theorem follows_body_stuck {d : Diagnostic} : Follows [.nonterminal .body] (.stuck d) (.stuck d) := by
  have value : Descends [.nonterminal .expr] (.stuck d) _ _ := descends_expr rfl
  rw [value.follows.eq_of_stuck] at value
  exact .rule (.rule (value.follows.append follows_stuck))

mutual

theorem descends_stmt {f : Feed} {s : Stmt} {r : f.After} (h : stmt f = (s, r)) :
    Descends [.nonterminal .stmt] f r.1 s.faults := by
  match f, r, h with
  | .token t rest, r, h =>
    rw [stmt.eq_def] at h
    dsimp only at h
    split at h
    · next k hk =>
      have next : (Feed.token t rest).next = some (.keyword k) := congrArg Lexeme.kind hk
      split at h
      · cases h
        exact .take rfl ⟨t, rfl, hk⟩ rfl (descends_decl false rfl)
      · cases h
        exact .take rfl ⟨t, rfl, hk⟩ rfl (descends_decl true rfl)
      · cases h
        exact .take rfl ⟨t, rfl, hk⟩ rfl (descends_ifChain rfl)
      · cases h
        have le := (expr rest).2.le
        exact .take rfl ⟨t, rfl, hk⟩ rfl ((descends_expr rfl).append (descends_block rfl))
      · cases h
        exact .take rfl ⟨t, rfl, hk⟩ rfl (descends_result rest)
      all_goals exact descends_exprStmt h (next ▸ rfl)
    · next p hp =>
      have next : (Feed.token t rest).next = some (.punct p) := congrArg Lexeme.kind hp
      split at h
      · next brace =>
        cases h
        exact .take rfl ⟨t, rfl, brace ▸ hp⟩ rfl (descends_body rfl)
      · next brace =>
        split at h
        · next semicolon =>
          cases h
          exact .take rfl ⟨t, rfl, semicolon ▸ hp⟩ rfl .nil
        · next semicolon =>
          refine descends_exprStmt h ?_
          rw [next]
          cases p <;> first | rfl | contradiction
    all_goals
      next hl =>
      refine descends_exprStmt h ?_
      change Phrase.stmt.select t.lexeme.kind = _
      rw [hl]
      rfl
  | .done p, r, h =>
    rw [stmt.eq_def] at h
    exact descends_exprStmt h rfl
  | .stuck d, r, h =>
    rw [stmt.eq_def] at h
    exact descends_exprStmt h rfl
termination_by f.size * 8 + 3
decreasing_by all_goals (simp only [Feed.size_token]; omega)

theorem descends_block {f : Feed} {b : Block} {r : f.After} (h : block f = (b, r)) :
    Descends [.nonterminal .block] f r.1 b.faults := by
  refine .rule (Phrase.select_last [] rfl nofun) ?_
  rw [block] at h
  split at h
  · next rest eq =>
    split at h
    next b' r' hb =>
    cases h
    have lt := rest.2
    exact (Descends.letter (Feed.eats_of_after? eq) rfl).append (descends_body hb)
  · next eq =>
    cases h
    exact .refuse (Feed.next_ne_punct eq) _
termination_by f.size * 8 + 1
decreasing_by all_goals omega

theorem descends_body {f : Feed} {b : Block} {r : f.After} (h : body f = (b, r)) :
    Descends [.nonterminal .body] f r.1 b.faults := by
  rw [body] at h
  split at h
  · next rest eq =>
    cases h
    exact .take rfl (Feed.eats_of_after? eq) rfl .nil
  · next eq =>
    split at h
    · next empty =>
      cases h
      cases f with
      | token t rest => cases empty
      | done p => cases empty
      | stuck d => exact follows_body_stuck.hole
    · split at h
      next s g hs =>
      split at h
      next b' r' hb =>
      cases h
      have lt := g.2
      have le := g.le
      exact .rule (Phrase.select_second rfl (Feed.next_ne_punct eq)) ((descends_stmt hs).append (descends_body hb))
termination_by f.size * 8 + 4
decreasing_by all_goals omega

theorem descends_ifChain {f : Feed} {c : IfChain} {r : f.After} (h : ifChain f = (c, r)) :
    Descends [.nonterminal .cond] f r.1 c.faults := by
  rw [ifChain] at h
  split at h
  next e g he =>
  split at h
  next b i hb =>
  split at h
  next o r' ho =>
  cases h
  have le := g.le
  have le' := i.le
  exact .rule rfl ((descends_expr he).append ((descends_block hb).append (descends_otherwise ho)))
termination_by f.size * 8 + 2
decreasing_by all_goals omega

theorem descends_otherwise {f : Feed} {o : Else} {r : f.Within} (h : otherwise f = (o, r)) :
    Descends [.nonterminal .otherwise] f r.1 o.faults := by
  rw [otherwise] at h
  split at h
  · next eq =>
    cases h
    exact .rule (Phrase.select_second rfl (Feed.next_ne_keyword eq)) .nil
  · next rest eq =>
    have lt := rest.2
    refine .take rfl (Feed.eats_of_after? eq) rfl ?_
    split at h
    · next g hg =>
      cases h
      have lt' := g.2
      exact .take rfl (Feed.eats_of_after? hg) rfl (descends_ifChain rfl)
    · next noIf =>
      cases h
      exact .rule (Phrase.select_second rfl (Feed.next_ne_keyword noIf)) (descends_block rfl)
termination_by f.size * 8
decreasing_by all_goals omega

end

/-! ### Programs -/

/-- The same comes behind a `const` and without it. -/
theorem descends_constness {isConst : Bool} {start : f.Within} (h : constness f = (isConst, start))
    (rest : Descends [.terminal .ident, .terminal (.punct .colon), .terminal .ident] start.1 r ds) :
    Descends [.nonterminal .param] f r ds := by
  rw [constness] at h
  split at h
  · next eq =>
    cases h
    exact .take rfl (Feed.eats_of_after? eq) rfl rest
  · next eq =>
    cases h
    exact .rule (Phrase.select_second rfl (Feed.next_ne_keyword eq)) rest

theorem descends_param {x : Except Diagnostic Param} {r : f.After} (h : param f = (x, r)) :
    Descends [.nonterminal .param] f r.1 (missing x) := by
  rw [param] at h
  split at h
  next isConst start hc =>
  refine descends_constness hc ?_
  split at h
  · next d r' hx =>
    cases h
    exact (descends_ident hx).cut (.head _) follows_stuck
  next name g hx =>
  dsimp only at h
  have before := (descends_ident hx).append (descends_skip .colon g.1)
  split at h
  · next d r' ht =>
    cases h
    exact before.append (descends_ident ht)
  · next type r' ht =>
    cases h
    exact before.append (descends_ident ht)

/-- One or more parameters: their list is not closed at once. -/
theorem descends_params {f : Feed} {ps : List Param} {r : f.After} (h : params f = (ps, r)) :
    Descends [.nonterminal .param, .nonterminal .moreParams] f r.1 [] := by
  rw [params] at h
  split at h
  · next d r' hp =>
    cases h
    have param := descends_param hp
    rw [param.faults d (.head _)] at param
    exact (param.cut (.head _) (.rule follows_stuck)).mono (List.nil_subset _)
  · next p g hp =>
    have param := descends_param hp
    split at h
    · next rest eq =>
      split at h
      next ps' r' hps =>
      cases h
      have lt := rest.2
      have le := g.le
      exact param.append (.take rfl (Feed.eats_of_after? eq) rfl (descends_params hps))
    · next noComma =>
      cases h
      exact param.append (.rule (Phrase.select_second rfl (Feed.next_ne_punct noComma)) (descends_skip ..))
termination_by f.size
decreasing_by omega

theorem descends_paramList {ps : List Param} {r : f.After} (h : paramList f = (ps, r)) :
    Descends [.nonterminal .paramList] f r.1 [] := by
  rw [paramList] at h
  split at h
  · next rest eq =>
    cases h
    exact .take rfl (Feed.eats_of_after? eq) rfl .nil
  · next eq => exact .rule (Phrase.select_second rfl (Feed.next_ne_punct eq)) (descends_params h)

/-- The diagnostics in the holes of a part of a program, or the one that stands instead of it. -/
def partFaults : Except Diagnostic Item → List Diagnostic
  | .ok i => i.faults
  | .error d => [d]

theorem descends_fnItem {x : Except Diagnostic FnItem} {r : f.After} (h : fnItem f = (x, r)) :
    Descends [.terminal .ident, .terminal (.punct .lparen), .nonterminal .paramList, .terminal (.punct .arrow),
      .terminal .ident, .nonterminal .block] f r.1 (partFaults (x.map .fn)) := by
  rw [fnItem] at h
  split at h
  · next d r' hx =>
    cases h
    exact (descends_ident hx).cut (.head _) follows_stuck
  next name g hx =>
  have name := descends_ident hx
  split at h
  · next noParen =>
    cases h
    exact name.append (.refuse (Feed.next_ne_punct noParen) _)
  next rest eq =>
  cases h
  have params : Descends [.nonterminal .paramList] rest.1 _ [] := descends_paramList rfl
  have type : Descends [.terminal .ident] _ _ _ := descends_ident (f := ((paramList rest.1).2.1.skip .arrow).1) rfl
  exact name.append ((Descends.letter (Feed.eats_of_after? eq) rfl).append
    (params.append ((descends_skip ..).append (type.append (descends_block rfl)))))

theorem descends_item {t : Token} {k : Keyword} {x : Except Diagnostic Item} {r : f.After}
    (ht : t.lexeme = .keyword k) (h : item t k f = (x, r)) :
    Descends [.nonterminal .item] (.token t f) r.1 (partFaults x) := by
  have eats : (Feed.token t f).Eats (.keyword k) f := ⟨t, rfl, ht⟩
  have decl (isConst : Bool) {x : Except Diagnostic Decl} {r : f.After} (h : decl isConst f = (x, r)) :
      Descends [.nonterminal (declPhrase isConst)] f r.1 (partFaults (x.map .decl)) := by
    have parsed := descends_decl isConst h
    cases x <;> exact parsed
  unfold item at h
  cases k with
  | fnKw =>
    cases h
    exact .take rfl eats rfl (descends_fnItem rfl)
  | letKw =>
    cases h
    exact .take rfl eats rfl (decl false rfl)
  | constKw =>
    cases h
    exact .take rfl eats rfl (decl true rfl)
  | asKw | whileKw | ifKw | elseKw | returnKw | breakKw | continueKw =>
    cases h
    exact .rule (congrArg Phrase.item.select eats.next) (.refuse (eats.next ▸ nofun) _)

/-- A part of a program starts with a keyword. -/
theorem descends_noItem {t : Token} (ends : (Feed.token t f).Ends) (ne : ∀ k, t.lexeme ≠ .keyword k) :
    Descends [.nonterminal .program] (.token t f) (.stuck ((Feed.token t f).complaint itemStarts))
      [(Feed.token t f).complaint itemStarts] := by
  have refused {f : Feed} (program : Phrase.program.select f.next = [.nonterminal .item, .nonterminal .program])
      (item : Phrase.item.select f.next = [.terminal (.keyword .constKw), .nonterminal .constRest])
      (ne : f.next ≠ some (.keyword .constKw)) : Descends [.nonterminal .program] f
        (.stuck (f.complaint itemStarts)) [f.complaint itemStarts] :=
    .rule program ((Descends.rule item (.refuse ne _)).cut (.head _) (.rule .nil))
  obtain ⟨l, start, stop⟩ := t
  cases l with
  | keyword k => exact absurd rfl (ne k)
  | endOfFile => exact absurd rfl ends.1
  | _ => exact refused rfl rfl nofun

/-- A program is read to the end of its source, or the feed is stuck with its faults. -/
theorem descends_items {f : Feed} {is : List Item} {finish : Except Diagnostic Position}
    (h : items f = (is, finish)) (ends : f.Ends ∨ ∃ d, f = .stuck d) :
    ∃ r, Descends [.nonterminal .program] f r (is.flatMap Item.faults ++ missing finish) ∧
      ∀ p, finish = .ok p → r = .done p := by
  match f, h with
  | .done p, h =>
    rw [items.eq_def] at h
    cases h
    exact ⟨.done p, .rule rfl .nil, fun _ eq => by cases eq; rfl⟩
  | .stuck d, h =>
    rw [items.eq_def] at h
    cases h
    exact ⟨.stuck d, .rule rfl Follows.nil.hole, fun _ eq => by cases eq⟩
  | .token t rest, h =>
    obtain ends | ⟨d, ⟨⟩⟩ := ends
    rw [items.eq_def] at h
    dsimp only at h
    split at h
    · next k hk =>
      have select : Phrase.program.select t.lexeme.kind = [.nonterminal .item, .nonterminal .program] := by
        rw [hk]
        rfl
      split at h
      · next i g hi =>
        cases h
        have le := g.le
        have first := descends_item hk hi
        have left : g.1.Ends ∨ ∃ d, g.1 = .stuck d := by
          obtain taken | ⟨d, stuck, -⟩ := first.follows.takes_or_refuses ends ⟨fun _ mem => (by cases mem), trivial⟩
          · exact .inl taken.1
          · exact .inr ⟨d, stuck⟩
        obtain ⟨r, more, done⟩ := descends_items rfl left
        refine ⟨r, .rule select ?_, done⟩
        rw [List.flatMap_cons, List.append_assoc]
        exact first.append more
      · next d g hi =>
        cases h
        have first := descends_item hk hi
        exact ⟨g.1, .rule select (first.cut (.head _) (.rule .nil)), fun _ eq => by cases eq⟩
    · next noKeyword =>
      cases h
      exact ⟨_, descends_noItem ends noKeyword, fun _ eq => by cases eq⟩
termination_by f.size
decreasing_by simp only [Feed.size_token]; omega

end Grammar

end CZero
