import CZero.Proofs.Grammar.Language

/-!
# Choosing an alternative

A reader that goes from left to right keeps a form: what it still expects, the next part first. Each
time a phrase comes first it chooses an alternative by the next token alone, and an option that the
token can start is always taken.

    read     next   expected                                                     chosen
    b = a    '+'    moreTerms comparison castType moreFactors moreTerms .. ';'   '+' term moreTerms

Here `+ c` may belong to the value that is assigned, which is the first `moreTerms`, or to the whole
assignment, which is the second one. Main statement: the choice loses nothing. If any choice leads to
the tokens that come, this one does. For an option that is taken where it could be left out: what
follows was to be read further down in the form, by the same option, and that one may be left out
instead.
-/

namespace CZero.Grammar

open ContextFreeRule (Form)

variable {X Y Z : Phrase} {α β γ : Form Kind Phrase} {a : Kind} {w : List Kind}

namespace Phrase

/-- The next token, or the end of the tokens, asks for an alternative. -/
def fits (k : Option Kind) : Form Kind Phrase → Bool
  | [] => k.isNone
  | .terminal a :: _ => k = some a
  | .nonterminal _ :: _ => false

/-- The alternative that the next token asks for, or the last one if it asks for none. -/
def select (X : Phrase) (k : Option Kind) : Form Kind Phrase :=
  (X.alternatives.find? (fits k)).getD (X.alternatives.getLastD [])

theorem select_mem (X : Phrase) (k : Option Kind) : X.select k ∈ X.alternatives := by
  unfold select
  cases found : X.alternatives.find? (fits k) with
  | some β => exact List.mem_of_find?_eq_some found
  | none =>
    have table : ∀ X ∈ all, X.alternatives.getLastD [] ∈ X.alternatives := by decide
    exact table X X.mem_all

/-! ### First letters -/

/-- The letters that a phrase may start with. -/
def first : Phrase → List Kind
  | program | item => [.keyword .fnKw, .keyword .letKw, .keyword .constKw]
  | paramList => [.punct .rparen, .keyword .constKw, .ident]
  | moreParams | moreArgs => [.punct .comma, .punct .rparen]
  | param => [.keyword .constKw, .ident]
  | letRest | constRest => [.ident]
  | init => [.punct .assign]
  | block => [.punct .lbrace]
  | body => .punct .rbrace :: (stmtOnly ++ operand)
  | stmt => stmtOnly ++ operand
  | result => .punct .semicolon :: operand
  | otherwise => [.keyword .elseKw]
  | branch => [.keyword .ifKw, .punct .lbrace]
  | cond | expr | sum | term | cast | unary => operand
  | comparison => [.punct .eq, .punct .ne, .punct .lt, .punct .gt, .punct .le, .punct .ge]
  | moreTerms => [.punct .plus, .punct .minus]
  | moreFactors => [.punct .star, .punct .slash]
  | castType => [.keyword .asKw]
  | primary => operand.tail
  | access => [.punct .assign, .punct .lparen]
  | args => .punct .rparen :: operand
where
  operand : List Kind :=
    [.punct .minus, .ident, .uint, .double, .string, .char, .punct .lparen]
  stmtOnly : List Kind :=
    [.keyword .letKw, .keyword .constKw, .keyword .ifKw, .keyword .whileKw, .keyword .returnKw,
      .punct .lbrace, .punct .semicolon]

end Phrase

/-- The letters that a form may start with, read off its first part. -/
def leads : Form Kind Phrase → List Kind
  | [] => []
  | .terminal a :: _ => [a]
  | .nonterminal X :: _ => X.first

/-- The first part of a form stands for at least one letter. -/
def isSolid : Form Kind Phrase → Bool
  | [] => false
  | .terminal _ :: _ => true
  | .nonterminal X :: _ => [] ∉ X.alternatives

theorem Phrase.isSolid_alternative : ∀ X ∈ all, ∀ β ∈ X.alternatives, β ≠ [] → isSolid β := by
  decide

theorem Phrase.leads_subset_first : ∀ X ∈ all, ∀ β ∈ X.alternatives, leads β ⊆ X.first := by
  decide

theorem isSolid_append (ne : β ≠ []) : isSolid (β ++ α) = isSolid β := by
  cases β with
  | nil => exact absurd rfl ne
  | cons s γ => cases s <;> rfl

theorem leads_append (ne : β ≠ []) : leads (β ++ α) = leads β := by
  cases β with
  | nil => exact absurd rfl ne
  | cons s γ => cases s <;> rfl

/-- What a form yields starts with one of its first letters, unless its first part may be empty. -/
theorem Yields.exists_lead (h : Yields α w) (solid : isSolid α) : ∃ a v, w = a :: v ∧ a ∈ leads α := by
  induction h with
  | nil => cases solid
  | @letter a α w h => exact ⟨a, w, rfl, .head _⟩
  | @rule X β α w mem h ih =>
    have ne : β ≠ [] := by
      rintro rfl
      exact of_decide_eq_true solid mem
    have inner : isSolid β := X.isSolid_alternative X.mem_all β mem ne
    obtain ⟨a, v, rfl, lead⟩ := ih (isSolid_append ne ▸ inner)
    exact ⟨a, v, rfl, X.leads_subset_first X.mem_all β mem (leads_append ne ▸ lead)⟩

theorem Yields.exists_lead_alternative (h : Yields (β ++ α) w) (mem : β ∈ X.alternatives) (ne : β ≠ []) :
    ∃ a v, w = a :: v ∧ a ∈ leads β := by
  have inner : isSolid β := X.isSolid_alternative X.mem_all β mem ne
  obtain ⟨a, v, eq, lead⟩ := h.exists_lead (isSolid_append ne ▸ inner)
  exact ⟨a, v, eq, leads_append ne ▸ lead⟩

/-- An alternative is chosen for each of its first letters. -/
theorem Phrase.select_of_lead : ∀ X ∈ all, ∀ β ∈ X.alternatives, ∀ a ∈ leads β, X.select (some a) = β := by
  decide

theorem Phrase.select_none_of_empty : ∀ X ∈ all, [] ∈ X.alternatives → X.select none = [] := by
  decide

/-! ### Options that are always taken -/

/-- Choosing an alternative of `X` before `α` loses nothing of what `α` yields. -/
def Phrase.Settled (X : Phrase) (α : Form Kind Phrase) : Prop :=
  ∀ a v, Yields α (a :: v) → Yields (X.select (some a) ++ α) (a :: v)

theorem Phrase.settled_nil : X.Settled [] := by
  intro a v h
  cases h

/-- Nothing is chosen before a form that starts with other letters. -/
theorem Phrase.settled_of_leads (solid : isSolid α) (h : ∀ a ∈ leads α, X.select (some a) = []) :
    X.Settled α := by
  intro a v hy
  obtain ⟨b, u, ⟨⟩, lead⟩ := hy.exists_lead solid
  rw [h a lead]
  exact hy

/-- An option may stand in between if `X` and it agree on what their letters ask for. -/
theorem Phrase.Settled.option (h : X.Settled α) (empty : [] ∈ Y.alternatives)
    (agree : ∀ β ∈ Y.alternatives, ∀ a ∈ leads β, X.select (some a) = [] ∨ X.select (some a) = β) :
    X.Settled (.nonterminal Y :: α) := by
  intro a v hy
  obtain ⟨β, mem, hβ⟩ := yields_nonterminal.1 hy
  by_cases ne : β = []
  · subst ne
    exact (h a v hβ).insert empty
  · obtain ⟨b, u, ⟨⟩, lead⟩ := hβ.exists_lead_alternative mem ne
    obtain skipped | chosen := agree β mem a lead
    · rw [skipped]
      exact hy
    · rw [chosen]
      exact hβ.insert empty

/-! ### What stands below a phrase -/

/-- The options that must be settled with respect to what stands below a phrase. -/
def Phrase.needs : Phrase → List Phrase
  | program => [program]
  | init => init :: tails
  | stmt | cond | otherwise | branch => [otherwise]
  | expr | comparison | sum | moreTerms | term | moreFactors | cast | castType | unary | primary | access =>
    tails
  | item | paramList | moreParams | param | letRest | constRest | block | body | result | args
  | moreArgs => []
where
  /-- What may go on behind a part of an expression. -/
  tails := [access, castType, moreFactors, moreTerms, comparison]

/-- What stands below each phrase of a form lets it choose. -/
def Stacked : Form Kind Phrase → Prop
  | [] => True
  | .terminal _ :: α => Stacked α
  | .nonterminal X :: α => (∀ Z ∈ X.needs, Z.Settled α) ∧ Stacked α

/-- A test that `Z` is settled with respect to `γ` and whatever stands below phrase `X`. -/
def guards (X Z : Phrase) : Form Kind Phrase → Bool
  | [] => Z ∈ X.needs
  | .terminal a :: _ => Z.select (some a) = []
  | .nonterminal Y :: γ =>
    if [] ∈ Y.alternatives then
      (∀ β ∈ Y.alternatives, ∀ a ∈ leads β, Z.select (some a) = [] ∨ Z.select (some a) = β) ∧ guards X Z γ
    else ∀ a ∈ Y.first, Z.select (some a) = []

theorem settled_of_guards (below : ∀ Z ∈ X.needs, Z.Settled α) (h : guards X Z γ) : Z.Settled (γ ++ α) := by
  induction γ with
  | nil => exact below Z (of_decide_eq_true h)
  | cons s γ ih =>
    cases s with
    | terminal a =>
      refine Phrase.settled_of_leads rfl fun b mem => ?_
      obtain rfl := List.mem_singleton.1 mem
      exact of_decide_eq_true h
    | nonterminal Y =>
      simp only [guards] at h
      split at h
      · next empty =>
        simp only [Bool.decide_and, Bool.and_eq_true, decide_eq_true_eq] at h
        exact (ih h.2).option empty h.1
      · next solid => exact Phrase.settled_of_leads (decide_eq_true solid) (of_decide_eq_true h)

/-- Every phrase of an alternative of `X` passes the test. -/
def isGuarded (X : Phrase) : Form Kind Phrase → Bool
  | [] => true
  | .terminal _ :: γ => isGuarded X γ
  | .nonterminal Y :: γ => (∀ Z ∈ Y.needs, guards X Z γ) ∧ isGuarded X γ

theorem isGuarded_alternative : ∀ X ∈ Phrase.all, ∀ β ∈ X.alternatives, isGuarded X β := by
  decide

/-- A phrase may be replaced by any of its alternatives. -/
theorem Stacked.rule (h : Stacked (.nonterminal X :: α)) (mem : β ∈ X.alternatives) : Stacked (β ++ α) := by
  have guarded := isGuarded_alternative X X.mem_all β mem
  clear mem
  induction β with
  | nil => exact h.2
  | cons s γ ih =>
    cases s with
    | terminal a => exact ih guarded
    | nonterminal Y =>
      simp only [isGuarded, Bool.decide_and, Bool.and_eq_true, decide_eq_true_eq] at guarded
      exact ⟨fun Z hZ => settled_of_guards h.1 (guarded.1 Z hZ), ih guarded.2⟩

theorem Phrase.mem_needs_of_empty : ∀ X ∈ all, [] ∈ X.alternatives → X ∈ X.needs := by
  decide

/-- The choice loses nothing. -/
theorem Yields.select (h : Yields (.nonterminal X :: α) w) (stacked : Stacked (.nonterminal X :: α)) :
    Yields (X.select w.head? ++ α) w := by
  obtain ⟨β, mem, hβ⟩ := yields_nonterminal.1 h
  by_cases ne : β = []
  · subst ne
    cases w with
    | nil =>
      rw [List.head?_nil, X.select_none_of_empty X.mem_all mem]
      exact hβ
    | cons a v => exact stacked.1 X (X.mem_needs_of_empty X.mem_all mem) a v hβ
  · obtain ⟨a, v, rfl, lead⟩ := hβ.exists_lead_alternative mem ne
    rw [List.head?_cons, X.select_of_lead X.mem_all β mem a lead]
    exact hβ

end CZero.Grammar
