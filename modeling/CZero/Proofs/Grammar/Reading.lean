import CZero.Proofs.Grammar.Choice
import CZero.Token.Feed

/-!
# Reading by the grammar

`Follows α f r` is a reader that expects the form `α` in feed `f` and leaves `r`. It chooses each
alternative by the next token and never takes a choice back; at the first letter that does not come it
is stuck, with a complaint about the token that came instead.

    expected           feed              then
    'as' name ..       as int ..         name .. is expected in  int ..
    'as' name ..       + 1 ..            stuck at '+'
    X ..               t ..              the alternative of X for t is expected in  t ..

Main statement, for a feed that comes from a whole source: either all that was taken is a string that
the form yields, or the reader is stuck at a token `t`, what was taken before `t` can still be
completed, and nothing that starts with what was taken and `t` can be. So `t` is the first token at
which it can be known that the feed is not what was expected.
-/

namespace CZero

namespace Feed

/-- The kind of the next token. The end of the source has none. -/
def next : Feed → Option Kind
  | .token t _ => t.lexeme.kind
  | .done _ | .stuck _ => none

/-- The tokens of a feed, the end of the source last. -/
def tokens : Feed → List Token
  | .token t rest => t :: rest.tokens
  | .done p => [⟨.endOfFile, p, p⟩]
  | .stuck _ => []

/-- The feed has no fault, and the end of the source comes once and last. -/
def Ends : Feed → Prop
  | .token t rest => t.lexeme ≠ .endOfFile ∧ rest.Ends
  | .done _ => True
  | .stuck _ => False

variable {f : Feed}

/-- A feed that ends has a next token, and this is what a complaint is about. -/
theorem Ends.exists_token (ends : f.Ends) : ∃ t rest, f.tokens = t :: rest ∧ f.next = t.lexeme.kind ∧
    ∀ expected, f.complaint expected = ⟨.expectedToken expected t.lexeme.describe, t.start⟩ := by
  cases f with
  | token t rest => exact ⟨t, rest.tokens, rfl, rfl, fun _ => rfl⟩
  | done p => exact ⟨⟨.endOfFile, p, p⟩, [], rfl, rfl, fun _ => rfl⟩
  | stuck d => exact ends.elim

end Feed

/-- The kinds of some tokens. -/
def kinds (ts : List Token) : List (Option Kind) :=
  ts.map (·.lexeme.kind)

@[simp] theorem kinds_cons (t : Token) (ts : List Token) : kinds (t :: ts) = t.lexeme.kind :: kinds ts := rfl

namespace Grammar

open ContextFreeRule (Form)

/-- A reader that expects a form in feed `f` leaves feed `r`. -/
inductive Follows : Form Kind Phrase → Feed → Feed → Prop
  | nil {f} : Follows [] f f
  | letter {t a α f r} : t.lexeme.kind = some a → Follows α f r → Follows (.terminal a :: α) (.token t f) r
  | refuse {a α f} (expected : List String) : f.next ≠ some a →
    Follows (.terminal a :: α) f (.stuck (f.complaint expected))
  | rule {X α f r} : Follows (X.select f.next ++ α) f r → Follows (.nonterminal X :: α) f r

variable {X : Phrase} {α β : Form Kind Phrase} {a : Kind} {f g r : Feed} {d : Diagnostic}

theorem Follows.eq_of_stuck (h : Follows α (.stuck d) r) : r = .stuck d := by
  generalize eq : Feed.stuck d = f at h
  induction h with
  | nil => rfl
  | letter => cases eq
  | refuse =>
    subst eq
    rfl
  | rule _ ih => exact ih eq

/-- One form after the other. -/
theorem Follows.append (h : Follows α f g) (hβ : Follows β g r) : Follows (α ++ β) f r := by
  induction h with
  | nil => exact hβ
  | letter kind _ ih => exact .letter kind (ih hβ)
  | refuse expected ne =>
    obtain rfl := hβ.eq_of_stuck
    exact .refuse expected ne
  | rule _ ih =>
    have inside := ih hβ
    rw [List.append_assoc] at inside
    exact .rule inside

/-! ### What can be completed -/

/-- Some string that a form yields, and then the end of the source, starts with `w`. -/
def Viable (α : Form Kind Phrase) (w : List (Option Kind)) : Prop :=
  ∃ v, Yields α v ∧ w <+: v.map some ++ [none]

theorem viable_nil (α : Form Kind Phrase) : Viable α [] := by
  obtain ⟨w, h⟩ := exists_yields α
  exact ⟨w, h, List.nil_prefix⟩

theorem viable_terminal {k : Option Kind} {w : List (Option Kind)} :
    Viable (.terminal a :: α) (k :: w) ↔ k = some a ∧ Viable α w := by
  constructor
  · rintro ⟨v, h, le⟩
    obtain ⟨u, rfl, rest⟩ := yields_terminal.1 h
    rw [List.map_cons, List.cons_append, List.cons_prefix_cons] at le
    exact ⟨le.1, u, rest, le.2⟩
  · rintro ⟨rfl, u, h, le⟩
    exact ⟨a :: u, .letter h, List.cons_prefix_cons.2 ⟨rfl, le⟩⟩

/-- What can be completed after a choice can be completed. -/
theorem Viable.rule {w : List (Option Kind)} {k : Option Kind} (h : Viable (X.select k ++ α) w) :
    Viable (.nonterminal X :: α) w := by
  obtain ⟨v, h, le⟩ := h
  exact ⟨v, .rule (X.select_mem k) h, le⟩

/-- What can be completed can be completed after the choice for its first token. -/
theorem Viable.select {k : Option Kind} {w : List (Option Kind)} (h : Viable (.nonterminal X :: α) (k :: w))
    (stacked : Stacked (.nonterminal X :: α)) : Viable (X.select k ++ α) (k :: w) := by
  obtain ⟨v, h, le⟩ := h
  have head : v.head? = k := by
    cases v with
    | nil => exact (List.cons_prefix_cons.1 le).1.symm
    | cons a v => exact (List.cons_prefix_cons.1 le).1.symm
  exact ⟨v, head ▸ h.select stacked, le⟩

/-! ### Taken or refused -/

/-- A string that the form yields was taken, and `r` is left. -/
def Takes (α : Form Kind Phrase) (f r : Feed) : Prop :=
  r.Ends ∧ ∃ u v, f.tokens = u ++ r.tokens ∧ kinds u = v.map some ∧ Yields α v

/-- Diagnostic `d` is about the first token at which the form cannot be completed any more. -/
def Refuses (α : Form Kind Phrase) (f : Feed) (d : Diagnostic) : Prop :=
  ∃ u t rest expected, f.tokens = u ++ t :: rest ∧ d = ⟨.expectedToken expected t.lexeme.describe, t.start⟩ ∧
    Viable α (kinds u) ∧ ¬Viable α (kinds (u ++ [t]))

theorem Takes.letter {t : Token} (kind : t.lexeme.kind = some a) (h : Takes α f r) :
    Takes (.terminal a :: α) (.token t f) r := by
  obtain ⟨ends, u, v, eq, eqv, h⟩ := h
  refine ⟨ends, t :: u, a :: v, ?_, ?_, .letter h⟩
  · rw [Feed.tokens, eq, List.cons_append]
  · rw [kinds_cons, eqv, kind, List.map_cons]

theorem Refuses.letter {t : Token} (kind : t.lexeme.kind = some a) (h : Refuses α f d) :
    Refuses (.terminal a :: α) (.token t f) d := by
  obtain ⟨u, t', rest, expected, eq, rfl, seen, next⟩ := h
  refine ⟨t :: u, t', rest, expected, ?_, rfl, ?_, ?_⟩
  · rw [Feed.tokens, eq, List.cons_append]
  · exact viable_terminal.2 ⟨kind, seen⟩
  · exact fun viable => next (viable_terminal.1 viable).2

theorem refuses_terminal (ends : f.Ends) (ne : f.next ≠ some a) (expected : List String) :
    Refuses (.terminal a :: α) f (f.complaint expected) := by
  obtain ⟨t, rest, eq, next, complaint⟩ := ends.exists_token
  refine ⟨[], t, rest, expected, eq, complaint expected, viable_nil _, fun viable => ?_⟩
  exact ne (next.trans (viable_terminal.1 viable).1)

theorem Refuses.rule (ends : f.Ends) (stacked : Stacked (.nonterminal X :: α))
    (h : Refuses (X.select f.next ++ α) f d) : Refuses (.nonterminal X :: α) f d := by
  obtain ⟨u, t, rest, expected, eq, rfl, seen, next⟩ := h
  refine ⟨u, t, rest, expected, eq, rfl, seen.rule, fun viable => next ?_⟩
  -- The choice was made for the first token of `u` or, if nothing was taken, for `t`.
  obtain ⟨t', rest', eq', first, -⟩ := ends.exists_token
  obtain ⟨w, hw⟩ : ∃ w, kinds (u ++ [t]) = f.next :: w := by
    rw [eq'] at eq
    cases u with
    | nil =>
      obtain ⟨rfl, -⟩ := List.cons.inj eq
      exact ⟨[], by rw [first]; rfl⟩
    | cons s u =>
      obtain ⟨rfl, -⟩ := List.cons.inj eq
      exact ⟨kinds (u ++ [t]), by rw [first]; rfl⟩
  rw [hw] at viable ⊢
  exact viable.select stacked

/-- A reader takes a string that the form yields, or is stuck at the first token that rules this out. -/
theorem Follows.takes_or_refuses (h : Follows α f r) (ends : f.Ends) (stacked : Stacked α) :
    Takes α f r ∨ ∃ d, r = .stuck d ∧ Refuses α f d := by
  induction h with
  | nil => exact .inl ⟨ends, [], [], rfl, rfl, .nil⟩
  | letter kind _ ih =>
    obtain taken | ⟨d, eq, refused⟩ := ih ends.2 stacked
    · exact .inl (taken.letter kind)
    · exact .inr ⟨d, eq, refused.letter kind⟩
  | refuse expected ne => exact .inr ⟨_, rfl, refuses_terminal ends ne expected⟩
  | @rule X α f r _ ih =>
    obtain ⟨left, u, v, eq, eqv, taken⟩ | ⟨d, eq, refused⟩ := ih ends (stacked.rule (X.select_mem _))
    · exact .inl ⟨left, u, v, eq, eqv, .rule (X.select_mem _) taken⟩
    · exact .inr ⟨d, eq, refused.rule ends stacked⟩

theorem stacked_program : Stacked [.nonterminal .program] :=
  ⟨fun _ _ => Phrase.settled_nil, trivial⟩

end Grammar

end CZero
