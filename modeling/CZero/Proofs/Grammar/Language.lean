import CZero.Token.Basic
import Mathlib.Computability.ContextFreeGrammar

/-!
# The language of the grammar

The grammar once more, now without trees: a context-free grammar whose letters are the kinds of
tokens. It says which strings of tokens are programs, and nothing about how they are read.

    Program    →  Item*
    Item       →  'fn' Name '(' ParamList '->' Name Block  |  'let' LetRest  |  'const' ConstRest
    ParamList  →  (Param (',' Param)*)? ')'
    Param      →  Name ':' Name  |  'const' Name ':' Name
    LetRest    →  Name ':' Name ('=' Expr)? ';'
    ConstRest  →  Name ':' Name '=' Expr ';'
    Block      →  '{' Stmt* '}'
    Stmt       →  'let' LetRest  |  'const' ConstRest  |  'if' Cond  |  'while' Expr Block
               |  'return' Expr? ';'  |  Block  |  ';'  |  Expr ';'
    Cond       →  Expr Block ('else' ('if' Cond | Block))?
    Expr       →  Sum (('==' | '!=' | '<' | '>' | '<=' | '>=') Sum)?
    Sum        →  Term (('+' | '-') Term)*
    Term       →  Cast (('*' | '/') Cast)*
    Cast       →  Unary ('as' Name)?
    Unary      →  '-' Unary  |  Primary
    Primary    →  Name ('=' Expr | '(' Args)?  |  integer | double | string | char  |  '(' Expr ')'
    Args       →  (Expr (',' Expr)*)? ')'

Repetitions and options are phrases of their own, such as `moreTerms` for the rest of a sum. The
grammar is ambiguous: in `a = b < c` the comparison may belong to the value or to the whole.
-/

/-- A string of letters and of phrases that stand for strings of letters. -/
abbrev ContextFreeRule.Form (T N : Type) : Type :=
  List (Symbol T N)

namespace CZero

/-- What the grammar knows of a token. Names and literals of one kind are all alike. -/
inductive Kind where
  | ident | uint | double | string | char
  | keyword (k : Keyword)
  | punct (p : Punct)
deriving DecidableEq

/-- The kind of a lexeme. The end of the source has none. -/
def Lexeme.kind : Lexeme → Option Kind
  | .ident _ => some .ident
  | .uint _ => some .uint
  | .double _ => some .double
  | .string _ => some .string
  | .char _ => some .char
  | .keyword k => some (.keyword k)
  | .punct p => some (.punct p)
  | .endOfFile => none

namespace Grammar

open ContextFreeRule (Form)

/-- The phrases of the grammar. -/
inductive Phrase where
  | program | item | paramList | moreParams | param
  | letRest | init | constRest
  | block | body | stmt | result | cond | otherwise | branch
  | expr | comparison | sum | moreTerms | term | moreFactors | cast | castType | unary
  | primary | access | args | moreArgs
deriving DecidableEq

namespace Phrase

/-- Every phrase. -/
def all : List Phrase :=
  [program, item, paramList, moreParams, param, letRest, init, constRest, block, body, stmt, result, cond,
    otherwise, branch, expr, comparison, sum, moreTerms, term, moreFactors, cast, castType, unary, primary,
    access, args, moreArgs]

theorem mem_all (X : Phrase) : X ∈ all := by
  cases X <;> decide

/-- What each phrase may stand for. -/
def alternatives : Phrase → List (Form Kind Phrase)
  | program => [[], [.nonterminal item, .nonterminal program]]
  | item =>
    [[word .fnKw, name, mark .lparen, .nonterminal paramList, mark .arrow, name, .nonterminal block],
      [word .letKw, .nonterminal letRest],
      [word .constKw, .nonterminal constRest]]
  | paramList => [[mark .rparen], [.nonterminal param, .nonterminal moreParams]]
  | moreParams => [[mark .comma, .nonterminal param, .nonterminal moreParams], [mark .rparen]]
  | param => [[word .constKw, name, mark .colon, name], [name, mark .colon, name]]
  | letRest => [[name, mark .colon, name, .nonterminal init, mark .semicolon]]
  | init => [[mark .assign, .nonterminal expr], []]
  | constRest => [[name, mark .colon, name, mark .assign, .nonterminal expr, mark .semicolon]]
  | block => [[mark .lbrace, .nonterminal body]]
  | body => [[mark .rbrace], [.nonterminal stmt, .nonterminal body]]
  | stmt =>
    [[word .letKw, .nonterminal letRest],
      [word .constKw, .nonterminal constRest],
      [word .ifKw, .nonterminal cond],
      [word .whileKw, .nonterminal expr, .nonterminal block],
      [word .returnKw, .nonterminal result],
      [mark .lbrace, .nonterminal body],
      [mark .semicolon],
      [.nonterminal expr, mark .semicolon]]
  | result => [[mark .semicolon], [.nonterminal expr, mark .semicolon]]
  | cond => [[.nonterminal expr, .nonterminal block, .nonterminal otherwise]]
  | otherwise => [[word .elseKw, .nonterminal branch], []]
  | branch => [[word .ifKw, .nonterminal cond], [.nonterminal block]]
  | expr => [[.nonterminal sum, .nonterminal comparison]]
  | comparison =>
    [[mark .eq, .nonterminal sum], [mark .ne, .nonterminal sum], [mark .lt, .nonterminal sum],
      [mark .gt, .nonterminal sum], [mark .le, .nonterminal sum], [mark .ge, .nonterminal sum], []]
  | sum => [[.nonterminal term, .nonterminal moreTerms]]
  | moreTerms =>
    [[mark .plus, .nonterminal term, .nonterminal moreTerms],
      [mark .minus, .nonterminal term, .nonterminal moreTerms], []]
  | term => [[.nonterminal cast, .nonterminal moreFactors]]
  | moreFactors =>
    [[mark .star, .nonterminal cast, .nonterminal moreFactors],
      [mark .slash, .nonterminal cast, .nonterminal moreFactors], []]
  | cast => [[.nonterminal unary, .nonterminal castType]]
  | castType => [[word .asKw, name], []]
  | unary => [[mark .minus, .nonterminal unary], [.nonterminal primary]]
  | primary =>
    [[name, .nonterminal access], [.terminal .uint], [.terminal .double], [.terminal .string],
      [.terminal .char], [mark .lparen, .nonterminal expr, mark .rparen]]
  | access => [[mark .assign, .nonterminal expr], [mark .lparen, .nonterminal args], []]
  | args => [[mark .rparen], [.nonterminal expr, .nonterminal moreArgs]]
  | moreArgs => [[mark .comma, .nonterminal expr, .nonterminal moreArgs], [mark .rparen]]
where
  /-- A name, of a type too. -/
  name := .terminal .ident
  /-- A keyword. -/
  word (k : Keyword) := .terminal (.keyword k)
  /-- An operator or a delimiter. -/
  mark (p : Punct) := .terminal (.punct p)

end Phrase

/-- Every alternative of every phrase. -/
def rules : Finset (ContextFreeRule Kind Phrase) :=
  (Phrase.all.flatMap fun X => X.alternatives.map (⟨X, ·⟩)).toFinset

theorem mem_rules {X : Phrase} {β : Form Kind Phrase} : ⟨X, β⟩ ∈ rules ↔ β ∈ X.alternatives := by
  simp only [rules, List.mem_toFinset, List.mem_flatMap, List.mem_map]
  constructor
  · rintro ⟨Y, -, γ, mem, ⟨⟩⟩
    exact mem
  · exact fun mem => ⟨X, X.mem_all, β, mem, rfl⟩

end Grammar

/-- The grammar of programs. -/
def grammar : ContextFreeGrammar Kind where
  NT := Grammar.Phrase
  initial := .program
  rules := Grammar.rules

namespace Grammar

open ContextFreeRule (Form)

/-! ### Deriving from the left -/

/-- The string `w` can be derived from a form by always replacing its first phrase. -/
inductive Yields : Form Kind Phrase → List Kind → Prop
  | nil : Yields [] []
  | letter {a α w} : Yields α w → Yields (.terminal a :: α) (a :: w)
  | rule {X β α w} : β ∈ X.alternatives → Yields (β ++ α) w → Yields (.nonterminal X :: α) w

variable {X : Phrase} {α β γ : Form Kind Phrase} {a : Kind} {w : List Kind}

theorem yields_terminal : Yields (.terminal a :: α) w ↔ ∃ v, w = a :: v ∧ Yields α v := by
  constructor
  · rintro (_ | h)
    exact ⟨_, rfl, h⟩
  · rintro ⟨v, rfl, h⟩
    exact .letter h

theorem yields_nonterminal : Yields (.nonterminal X :: α) w ↔ ∃ β ∈ X.alternatives, Yields (β ++ α) w := by
  constructor
  · rintro (_ | _ | ⟨mem, h⟩)
    exact ⟨_, mem, h⟩
  · rintro ⟨β, mem, h⟩
    exact .rule mem h

/-- Whatever comes first, a form yields more if its end does. -/
theorem Yields.mono (h : ∀ v, Yields β v → Yields γ v) (hy : Yields (α ++ β) w) : Yields (α ++ γ) w := by
  generalize eq : α ++ β = δ at hy
  induction hy generalizing α with
  | nil =>
    obtain ⟨rfl, rfl⟩ := List.append_eq_nil_iff.1 eq
    exact h _ .nil
  | @letter a δ w hδ ih =>
    cases α with
    | nil =>
      rw [List.nil_append] at eq ⊢
      exact h _ (eq ▸ .letter hδ)
    | cons s α =>
      obtain ⟨rfl, rfl⟩ := List.cons.inj eq
      exact .letter (ih rfl)
  | @rule X ε δ w mem hδ ih =>
    cases α with
    | nil =>
      rw [List.nil_append] at eq ⊢
      exact h _ (eq ▸ .rule mem hδ)
    | cons s α =>
      obtain ⟨rfl, rfl⟩ := List.cons.inj eq
      have inside := ih (List.append_assoc ε α β)
      rw [List.append_assoc] at inside
      exact .rule mem inside

/-- A phrase that may stand for nothing can be put anywhere. -/
theorem Yields.insert (empty : [] ∈ X.alternatives) (h : Yields (α ++ β) w) :
    Yields (α ++ .nonterminal X :: β) w :=
  h.mono fun _ => .rule empty

theorem Yields.derives (h : Yields α w) : grammar.Derives α (w.map .terminal) := by
  induction h with
  | nil => exact .refl _
  | @letter a α w _ ih => exact ih.append_left [.terminal a]
  | @rule X β α w mem _ ih =>
    refine ContextFreeGrammar.Produces.trans_derives ⟨⟨X, β⟩, mem_rules.2 mem, ?_⟩ ih
    exact .head α

/-- Deriving from the left is enough. -/
theorem yields_of_derives (h : grammar.Derives α (w.map .terminal)) : Yields α w := by
  induction h using Relation.ReflTransGen.head_induction_on with
  | refl =>
    induction w with
    | nil => exact .nil
    | cons a w ih => exact .letter ih
  | head step _ ih =>
    obtain ⟨⟨X, β⟩, mem, rewrites⟩ := step
    obtain ⟨p, q, rfl, rfl⟩ := rewrites.exists_parts
    rw [List.append_assoc] at ih ⊢
    exact ih.mono fun _ => .rule (mem_rules.1 mem)

/-- The strings of the language are those that can be derived from a program. -/
theorem mem_language_iff : w ∈ grammar.language ↔ Yields [.nonterminal .program] w :=
  ⟨yields_of_derives, Yields.derives⟩

/-! ### Every phrase stands for something -/

/-- How deep the least derivation of a phrase is. -/
def Phrase.depth : Phrase → Nat
  | .program | .paramList | .moreParams | .param | .init | .body | .result | .otherwise => 0
  | .comparison | .moreTerms | .moreFactors | .castType | .access | .args | .moreArgs => 0
  | .primary | .letRest | .block | .stmt => 1
  | .unary | .item | .branch => 2
  | .cast => 3
  | .term => 4
  | .sum => 5
  | .expr => 6
  | .constRest | .cond => 7

/-- A phrase has an alternative that goes down in depth. -/
theorem Phrase.exists_shallow (X : Phrase) :
    ∃ β ∈ X.alternatives, ∀ Y, .nonterminal Y ∈ β → Y.depth < X.depth := by
  have table : ∀ X ∈ all, ∃ β ∈ X.alternatives, ∀ Y ∈ all, .nonterminal Y ∈ β → Y.depth < X.depth := by
    decide
  obtain ⟨β, mem, lt⟩ := table X X.mem_all
  exact ⟨β, mem, fun Y => lt Y Y.mem_all⟩

/-- Every form yields some string. -/
theorem exists_yields (α : Form Kind Phrase) : ∃ w, Yields α w := by
  -- The induction is on a bound of the depths, and inside it on the form.
  have shallow (n : Nat) : ∀ α β : Form Kind Phrase, (∀ X, .nonterminal X ∈ α → X.depth < n) →
      (∃ w, Yields β w) → ∃ w, Yields (α ++ β) w := by
    induction n using Nat.strong_induction_on with
    | _ n outer =>
      intro α β lt hβ
      induction α with
      | nil => exact hβ
      | cons s α ih =>
        have rest := ih fun X mem => lt X (.tail _ mem)
        cases s with
        | terminal a =>
          obtain ⟨w, hw⟩ := rest
          exact ⟨a :: w, .letter hw⟩
        | nonterminal X =>
          obtain ⟨γ, mem, lower⟩ := X.exists_shallow
          obtain ⟨w, hw⟩ := outer X.depth (lt X (.head _)) γ (α ++ β) lower rest
          exact ⟨w, .rule mem hw⟩
  obtain ⟨w, hw⟩ := shallow 8 α [] (fun X _ => by cases X <;> decide) ⟨[], .nil⟩
  exact ⟨w, List.append_nil α ▸ hw⟩

end Grammar

end CZero
