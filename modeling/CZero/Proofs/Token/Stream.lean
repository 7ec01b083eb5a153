import CZero.Proofs.Token.Place

/-!
# The stream of tokens

Where the tokens of a source stand in its text. The stream ends with the end of the source or with the first
fault, and nothing comes behind it. Spans follow each other, and the text between them is trivia.

    ·let·x·=·1;·// one⏎$          · blanks, ⏎ a line break
     └─┘ │ │ ││                    spans, and behind them a fault at line 2, column 1

The parser asks for tokens as it goes, and names only places of tokens that it has seen, or of the fault. So
the positions of all diagnostics are places of the source, and so is the end of the program, where a missing
`main` is reported.
-/

namespace CZero

open Lexical

/-! ### Requests one by one -/

namespace Lexer

/-- What the request number `k` for an item gives, counted from 0. -/
def pulled (l : Lexer) : Nat → Option (Except Diagnostic Token)
  | 0 => l.pull.1
  | k + 1 => l.pull.2.pulled k

theorem pulled_of_finished {l : Lexer} (h : l.finished) (k : Nat) : l.pulled k = none := by
  have stays : l.pull = (none, l) := by rw [pull, if_pos h]
  induction k with
  | zero => rw [pulled, stays]
  | succ k ih => rw [pulled, stays, ih]

theorem pull_of_fresh {l : Lexer} (fresh : l.ahead = none) (going : l.finished = false) :
    l.pull = (some l.cursor.scan.1, ⟨l.cursor.scan.2, none, match l.cursor.scan.1 with
      | .ok t => t.lexeme == .endOfFile
      | .error _ => true⟩) := by
  obtain ⟨cursor, ahead, finished⟩ := l
  obtain rfl : ahead = none := fresh
  obtain rfl : finished = false := going
  rfl

/-- A request gives the first item, and either it was the last one or the others are still to come. -/
theorem pull_cases {l : Lexer} (fresh : l.ahead = none) (going : l.finished = false) :
    ∃ x, l.pull.1 = some x ∧
      ((Feed.ofCursor l.cursor).items = [x] ∧ l.pull.2.finished ∨
        (Feed.ofCursor l.cursor).items = x :: (Feed.ofCursor l.pull.2.cursor).items ∧
          l.pull.2.ahead = none ∧ l.pull.2.finished = false) := by
  rw [pull_of_fresh fresh going]
  match scanned : l.cursor.scan with
  | (.error d, after) =>
    rw [Feed.ofCursor_of_error scanned]
    exact ⟨_, rfl, .inl ⟨rfl, rfl⟩⟩
  | (.ok t, after) =>
    by_cases done : t.lexeme = .endOfFile
    · obtain ⟨p, rfl⟩ : ∃ p, t = ⟨.endOfFile, p, p⟩ := ⟨_, Cursor.scan_endOfFile scanned done⟩
      rw [Feed.ofCursor_of_done scanned]
      exact ⟨_, rfl, .inl ⟨rfl, rfl⟩⟩
    · rw [Feed.ofCursor_of_token scanned done]
      exact ⟨_, rfl, .inr ⟨rfl, rfl, beq_false_of_ne done⟩⟩

/-- The requests give the items of the feed, and then nothing. -/
theorem pulled_eq {l : Lexer} (fresh : l.ahead = none) (going : l.finished = false) (k : Nat) :
    l.pulled k = (Feed.ofCursor l.cursor).items[k]? := by
  induction k generalizing l with
  | zero =>
    obtain ⟨x, first, ⟨last, -⟩ | ⟨more, -⟩⟩ := pull_cases fresh going
    · rw [pulled, first, last, List.getElem?_cons_zero]
    · rw [pulled, first, more, List.getElem?_cons_zero]
  | succ k ih =>
    obtain ⟨x, -, ⟨last, finished⟩ | ⟨more, fresh, going⟩⟩ := pull_cases fresh going
    · rw [pulled, pulled_of_finished finished, last, List.getElem?_cons_succ, List.getElem?_nil]
    · rw [pulled, ih fresh going, more, List.getElem?_cons_succ]

end Lexer

/-! ### Spans -/

namespace Feed

variable {chars : List Char} {o : Nat} {f : Feed}

/-- The items of a feed stand in a text behind an offset, one behind the other. -/
inductive Laid (chars : List Char) : Nat → Feed → Prop
  | token {o : Nat} {t : Token} {rest : Feed} : t.lexeme ≠ .endOfFile → o ≤ t.start.offset →
    chars.extract o t.start.offset ∈ trivia → t.start.offset < t.stop.offset → t.start.IsIn chars →
    t.stop.IsIn chars → Laid chars t.stop.offset rest → Laid chars o (.token t rest)
  | done {o : Nat} {p : Position} : o ≤ p.offset → chars.extract o p.offset ∈ trivia → p.offset = chars.length →
    p.IsIn chars → Laid chars o (.done p)
  | stuck {o : Nat} {d : Diagnostic} : o ≤ d.position.offset → d.position.IsIn chars → Laid chars o (.stuck d)

theorem laid_ofCursor {c : Cursor} (h : c.Placed chars) (short : chars.length + 1 < 2 ^ 32) :
    Laid chars c.position.offset (ofCursor c) := by
  obtain ⟨le, gap⟩ := h.extract_mem_trivia
  have start := (Cursor.placed_skipBlanks h).isIn short
  have scans := h.scans short
  match scanned : c.scan with
  | (.error d, after) =>
    rw [scanned] at scans
    rw [ofCursor_of_error scanned]
    cases scans with
    | fault isIn => exact .stuck (Cursor.offset_of_fault scanned) isIn
  | (.ok t, after) =>
    rw [scanned] at scans
    cases scans with
    | done ends =>
      rw [ofCursor_of_done scanned]
      exact .done le gap ends start
    | token ne starts stops lt placed =>
      have shorter := Cursor.scan_shorter scanned ne
      rw [ofCursor_of_token scanned ne]
      rw [← starts] at le gap start
      exact .token ne le gap lt start (stops ▸ placed.isIn short) (stops ▸ laid_ofCursor placed short)
termination_by c.rest.length

/-- The span of a token. -/
def span (t : Token) : Nat × Nat :=
  (t.start.offset, t.stop.offset)

/-- The items of a feed stand in a text as they should. -/
structure IsExact (chars : List Char) (f : Feed) : Prop where
  /-- The stream has tokens, and then perhaps a fault. -/
  items_eq : f.items = f.tokens.map .ok ++ f.fault?.toList.map .error
  length_le : f.items.length ≤ chars.length + 1
  /-- The end of the source is the last token, unless there is a fault. -/
  ends : f.fault? = none → ∃ front p, f.tokens = front ++ [⟨.endOfFile, p, p⟩] ∧ p.offset = chars.length ∧
    ∀ t ∈ front, t.lexeme ≠ .endOfFile
  /-- A fault stands behind all tokens. -/
  fails : ∀ d, f.fault? = some d → d.position.IsIn chars ∧
    ∀ t ∈ f.tokens, t.lexeme ≠ .endOfFile ∧ t.stop.offset ≤ d.position.offset
  nonempty : ∀ t ∈ f.tokens, t.lexeme ≠ .endOfFile → t.start.offset < t.stop.offset
  ordered : f.tokens.Pairwise fun t u => t.stop.offset ≤ u.start.offset
  /-- The text before the first token, and between a token and the next one. -/
  gaps : ((0, 0) :: f.tokens.map span).IsChain fun x y => chars.extract x.2 y.1 ∈ trivia
  places : ∀ t ∈ f.tokens, t.start.IsIn chars ∧ t.stop.IsIn chars

theorem items_eq (f : Feed) : f.items = f.tokens.map .ok ++ f.fault?.toList.map .error := by
  induction f with
  | token t rest ih => exact congrArg (.ok t :: ·) ih
  | done | stuck => rfl

namespace Laid

theorem length_le (h : Laid chars o f) (le : o ≤ chars.length) : f.items.length ≤ chars.length - o + 1 := by
  induction h with
  | token _ le _ lt _ stop _ ih =>
    have := ih stop.offset_le
    have := stop.offset_le
    simp only [items, List.length_cons]
    omega
  | done | stuck => exact Nat.le_add_left ..

theorem le_start (h : Laid chars o f) : ∀ t ∈ f.tokens, o ≤ t.start.offset := by
  induction h with
  | token _ le _ lt _ _ _ ih =>
    refine List.forall_mem_cons.2 ⟨le, fun u mem => ?_⟩
    have := ih u mem
    omega
  | done le => exact List.forall_mem_singleton.2 le
  | stuck => exact nofun

theorem ends (h : Laid chars o f) (none : f.fault? = none) :
    ∃ front p, f.tokens = front ++ [⟨.endOfFile, p, p⟩] ∧ p.offset = chars.length ∧
      ∀ t ∈ front, t.lexeme ≠ .endOfFile := by
  induction h with
  | @token o t rest ne _ _ _ _ _ _ ih =>
    obtain ⟨front, p, eq, last, others⟩ := ih none
    exact ⟨t :: front, p, congrArg (t :: ·) eq, last, List.forall_mem_cons.2 ⟨ne, others⟩⟩
  | @done o p _ _ last _ => exact ⟨[], p, rfl, last, nofun⟩
  | stuck => cases none

theorem fails (h : Laid chars o f) {d : Diagnostic} (some : f.fault? = some d) :
    o ≤ d.position.offset ∧ d.position.IsIn chars ∧
      ∀ t ∈ f.tokens, t.lexeme ≠ .endOfFile ∧ t.stop.offset ≤ d.position.offset := by
  induction h with
  | token ne le _ lt _ _ _ ih =>
    obtain ⟨behind, isIn, others⟩ := ih some
    exact ⟨by omega, isIn, List.forall_mem_cons.2 ⟨⟨ne, behind⟩, others⟩⟩
  | done => cases some
  | stuck le isIn =>
    cases some
    exact ⟨le, isIn, nofun⟩

theorem nonempty (h : Laid chars o f) :
    ∀ t ∈ f.tokens, t.lexeme ≠ .endOfFile → t.start.offset < t.stop.offset := by
  induction h with
  | token _ _ _ lt _ _ _ ih => exact List.forall_mem_cons.2 ⟨fun _ => lt, ih⟩
  | done => exact List.forall_mem_singleton.2 fun ne => absurd rfl ne
  | stuck => exact nofun

theorem ordered (h : Laid chars o f) : f.tokens.Pairwise fun t u => t.stop.offset ≤ u.start.offset := by
  induction h with
  | token _ _ _ _ _ _ rest ih => exact List.pairwise_cons.2 ⟨rest.le_start, ih⟩
  | done => exact List.pairwise_singleton _ _
  | stuck => exact List.Pairwise.nil

theorem gaps (h : Laid chars o f) (p : Nat) :
    ((p, o) :: f.tokens.map span).IsChain fun x y => chars.extract x.2 y.1 ∈ trivia := by
  induction h generalizing p with
  | token _ _ gap _ _ _ _ ih => exact List.isChain_cons_cons.2 ⟨gap, ih _⟩
  | done _ gap => exact List.isChain_cons_cons.2 ⟨gap, List.IsChain.singleton _⟩
  | stuck => exact List.IsChain.singleton _

theorem places (h : Laid chars o f) : ∀ t ∈ f.tokens, t.start.IsIn chars ∧ t.stop.IsIn chars := by
  induction h with
  | token _ _ _ _ start stop _ ih => exact List.forall_mem_cons.2 ⟨⟨start, stop⟩, ih⟩
  | done _ _ _ isIn => exact List.forall_mem_singleton.2 ⟨isIn, isIn⟩
  | stuck => exact nofun

theorem isExact (h : Laid chars 0 f) : f.IsExact chars where
  items_eq := f.items_eq
  length_le := h.length_le (Nat.zero_le _)
  ends := h.ends
  fails _ some := (h.fails some).2
  nonempty := h.nonempty
  ordered := h.ordered
  gaps := h.gaps 0
  places := h.places

end Laid

theorem laid_ofSource {source : String} (short : source.length + 1 < 2 ^ 32) :
    Laid source.toList 0 (ofSource source) :=
  laid_ofCursor (.ofSource source) (by rwa [String.length_toList])

end Feed

/-! ### Diagnostics -/

theorem Likeness.id_reserved : ∀ x ∈ reservedNames, id x = x :=
  fun _ _ => rfl

/-- The likeness of a source with itself when all its places have a property. -/
def Likeness.within (P : Position → Prop) : Likeness where
  name := id
  injective := Function.injective_id
  reserved := id_reserved
  At p _ := P p
  Ends p _ := P p
  at_of_ends h := h
  Fault d _ := P d.position

variable {P : Position → Prop}

theorem Likeness.feeds_within {f : Feed} (tokens : ∀ t ∈ f.tokens, P t.start)
    (fault : ∀ d, f.fault? = some d → P d.position) : (within P).Feeds f f := by
  have same (l : Lexeme) : l.rename id = l := by cases l <;> rfl
  induction f with
  | done p => exact .done (tokens _ List.mem_cons_self)
  | stuck d => exact .stuck (.text (fault d rfl))
  | token t rest ih =>
    obtain ⟨first, others⟩ := List.forall_mem_cons.1 tokens
    exact .token (same _).symm first (ih others fault)

/-- Analysis names only places of tokens and of the fault of the text. -/
theorem analyse_within {source : String} (tokens : ∀ t ∈ (Feed.ofSource source).tokens, P t.start)
    (fault : ∀ d, (Feed.ofSource source).fault? = some d → P d.position) :
    (∀ a, analyse source = .ok a → P a.finish) ∧ ∀ d, analyse source = .error d → P d.position := by
  have results := (Likeness.feeds_within tokens fault).program.analyse
  have scanned := Program.isScanned_ofSource source
  change (Likeness.within P).Results _ (analyse source) (analyse source) at results
  constructor
  · intro a eq
    rw [eq] at results
    cases results with
    | ok alike => exact alike.finish
  · intro d eq
    have mistake := scanned.isMistake eq
    rw [eq] at results
    cases results with
    | error alike =>
      cases alike with
      | text at_fault => exact at_fault
      | place _ at_place => exact at_place
      | internal internal => exact absurd internal mistake.not_isInternal

/-- Compilation names no other places than analysis. -/
theorem compile_within {source : String} {d : Diagnostic} (finish : ∀ a, analyse source = .ok a → P a.finish)
    (fault : ∀ d, analyse source = .error d → P d.position) (fails : compile source = .error d) :
    P d.position := by
  cases eq : analyse source with
  | error e =>
    cases (compile_of_analyse_error eq).symm.trans fails
    exact fault d eq
  | ok a =>
    obtain ⟨_, -, compiles, missing⟩ := compile_of_analyse eq
    by_cases main : (Program.ofSource source).DeclaresMain
    · cases (compiles main).symm.trans fails
    · cases (missing main).symm.trans fails
      exact finish a eq

/-- The tokens of a source of fewer than `2 ^ 32 - 1` characters stand in its text one behind the other, with
only white space and comments between them, up to its end or to the first fault, and nothing is handed out behind
that. Every position that the stream, a diagnostic of the compiler or a program that is accepted has is the place
of its offset. -/
theorem stream_isExact (source : String) (short : source.length < 2 ^ 32 - 1) :
    (Feed.ofSource source).IsExact source.toList ∧
    (∀ k, (Lexer.ofSource source).pulled k = (Feed.ofSource source).items[k]?) ∧
    (∀ d, compile source = .error d → d.position.IsIn source.toList) ∧
    ∀ a, analyse source = .ok a → a.finish.IsIn source.toList := by
  have stream := (Feed.laid_ofSource (Nat.add_lt_of_lt_sub short)).isExact
  obtain ⟨finish, fault⟩ :=
    analyse_within (fun t mem => (stream.places t mem).1) fun d some => (stream.fails d some).1
  exact ⟨stream, Lexer.pulled_eq rfl rfl, fun _ => compile_within finish fault, finish⟩

theorem stream_isExact_dollar :
    (Feed.ofSource " let x = 1; // one\n$").IsExact " let x = 1; // one\n$".toList ∧
    ∀ d, compile " let x = 1; // one\n$" = .error d → d.position.IsIn " let x = 1; // one\n$".toList :=
  have ⟨stream, _, places, _⟩ := stream_isExact " let x = 1; // one\n$" (by decide)
  ⟨stream, places⟩

/-! ### Where the columns run out -/

theorem Cursor.skip_blanks (n : Nat) (p : Position) :
    skip false (List.replicate n ' ') p = ⟨[], p.advance n⟩ := by
  induction n generalizing p with
  | zero => simp [skip]
  | succ n ih =>
    have blank : Text.isBlank ' ' = true := by decide
    have step : skip false (List.replicate (n + 1) ' ') p = skip false (List.replicate n ' ') (p.advance 1) := by
      simp [List.replicate_succ, skip, blank]
    rw [step, ih, Position.advance_advance, Nat.add_comm]

theorem Feed.exists_ofSource_eq_done (n : Nat) :
    ∃ source : String, source.length = n ∧ ofSource source = .done (Position.origin.advance n) := by
  refine ⟨String.ofList (List.replicate n ' '), by simp, ?_⟩
  have skipped : (Cursor.ofSource (String.ofList (List.replicate n ' '))).skipBlanks =
      ⟨[], Position.origin.advance n⟩ := by
    rw [Cursor.skipBlanks, Cursor.ofSource, String.toList_ofList, Cursor.skip_blanks]
  have scanned := Cursor.scan_of_nil (congrArg Cursor.rest skipped)
  rw [ofSource, ofCursor_of_done scanned, skipped]

/-- A line of `2 ^ 32 - 1` characters is too long: its end is in column `2 ^ 32`, and is reported in column 0. -/
theorem stream_not_isExact : ∃ source : String, source.length = 2 ^ 32 - 1 ∧
    (Feed.ofSource source).tokens = [⟨.endOfFile, ⟨1, 0, 2 ^ 32 - 1⟩, ⟨1, 0, 2 ^ 32 - 1⟩⟩] ∧
    ¬(Feed.ofSource source).IsExact source.toList := by
  obtain ⟨source, length, feed⟩ := Feed.exists_ofSource_eq_done (2 ^ 32 - 1)
  have last : Position.origin.advance (2 ^ 32 - 1) = ⟨1, 0, 2 ^ 32 - 1⟩ := by decide
  rw [last] at feed
  refine ⟨source, length, by rw [feed, Feed.tokens], fun stream => ?_⟩
  have place := (stream.places ⟨.endOfFile, _, _⟩ (by rw [feed]; exact List.mem_singleton_self _)).1
  exact Nat.succ_ne_zero _ place.column_eq.symm

end CZero
