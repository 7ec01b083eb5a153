import CZero.Proofs.Token.Stream

/-!
# Look-ahead

A lexer is asked for its next token, or to show it. To show a token it scans ahead and keeps the token, so
its cursor is at times one token further than what was handed out:

    requests       next    peek    peek    next
    answers         a       b       b       b
    kept                    b       b
    cursor         a|b c   a b|c   a b|c   a b|c

`l.Holds f` says that lexer `l` is about to hand out what feed `f` has, wherever its cursor is. Every answer
but a fault keeps this up (`Holds.ask`), so the answers to any requests are known from the feed alone. Main
statement (`Lexer.answers_transparent`): request by request, they are the items of the stream of tokens, and
only `next` moves on in it.
-/

namespace CZero

/-! ### The feed as it is asked -/

namespace Feed

/-- The first item of a feed. -/
def head : Feed → Except Diagnostic Token
  | .token t _ => .ok t
  | .done p => .ok ⟨.endOfFile, p, p⟩
  | .stuck d => .error d

/-- What is left behind the first item. The end of the source comes again and again. -/
def tail : Feed → Feed
  | .token _ rest => rest
  | .done p => .done p
  | .stuck d => .stuck d

/-- What is left behind the first `k` items. -/
def drop (f : Feed) : Nat → Feed
  | 0 => f
  | k + 1 => f.tail.drop k

theorem drop_done (p : Position) (k : Nat) : (done p).drop k = .done p := by
  induction k with
  | zero => rfl
  | succ k ih => exact ih

theorem drop_stuck (d : Diagnostic) (k : Nat) : (stuck d).drop k = .stuck d := by
  induction k with
  | zero => rfl
  | succ k ih => exact ih

/-- The item number `k`, or the last one if there are fewer. -/
theorem items_head_drop (f : Feed) (k : Nat) :
    f.items[min k (f.items.length - 1)]? = some (f.drop k).head := by
  induction f generalizing k with
  | done p =>
    rw [drop_done]
    exact congrArg (_[·]?) (Nat.min_zero k)
  | stuck d =>
    rw [drop_stuck]
    exact congrArg (_[·]?) (Nat.min_zero k)
  | token t rest ih =>
    cases k with
    | zero => rfl
    | succ k =>
      have some : 0 < rest.items.length := by cases rest <;> exact Nat.succ_pos _
      have index : min (k + 1) (rest.items.length + 1 - 1) = min k (rest.items.length - 1) + 1 := by omega
      rw [items, List.length_cons, index, List.getElem?_cons_succ]
      exact ih k

/-- A fault among the items is the fault of the text. -/
theorem fault?_of_head {f : Feed} {k : Nat} {d : Diagnostic} (h : (f.drop k).head = .error d) :
    f.fault? = some d := by
  induction f generalizing k with
  | done p =>
    rw [drop_done] at h
    cases h
  | stuck e =>
    rw [drop_stuck] at h
    cases h
    rfl
  | token t rest ih =>
    cases k with
    | zero => cases h
    | succ k => exact ih h

end Feed

namespace Cursor

/-- At the end of a text a scan finds the end again, at the same place. -/
theorem scan_again {c after : Cursor} {t : Token} (h : c.scan = (.ok t, after)) (done : t.lexeme = .endOfFile) :
    after.scan = (.ok t, after) ∧ t = ⟨.endOfFile, after.position, after.position⟩ := by
  cases eq : c.skipBlanks.rest with
  | nil =>
    cases (scan_of_nil eq).symm.trans h
    have stays : c.skipBlanks.skipBlanks = c.skipBlanks := by
      rw [skipBlanks, eq, skip, ← eq]
    refine ⟨?_, rfl⟩
    rw [scan_of_nil (stays.symm ▸ eq), stays]
  | cons ch cs =>
    have finds := Scan.finds_lexeme ch cs
    rw [scan_of_cons eq] at h
    generalize Scan.lexeme ch cs = found at finds h
    cases finds with
    | token _ _ means =>
      cases h
      obtain rfl := done
      exact means.elim
    | tooLarge | badEscape | nothing => cases h

end Cursor

/-! ### Requests -/

namespace Lexer

/-- What a lexer can be asked for. -/
inductive Request where
  /-- The next token, which is then handed out. -/
  | next
  /-- The next token, which stays the next one. -/
  | peek
deriving DecidableEq

/-- The answer to a request, and the lexer after it. -/
def ask (l : Lexer) : Request → Except Diagnostic Token × Lexer
  | .next => l.next
  | .peek => l.peek

/-- The answers to some requests in turn, up to the first fault. -/
def answers (l : Lexer) : List Request → List (Except Diagnostic Token)
  | [] => []
  | q :: qs =>
    match l.ask q with
    | (.ok t, l) => .ok t :: l.answers qs
    | (.error d, _) => [.error d]

/-- What a feed has left after a request. -/
def Request.rest (q : Request) (f : Feed) : Feed :=
  match q with
  | .next => f.tail
  | .peek => f

/-- The lexer is about to hand out what the feed has. -/
inductive Holds : Lexer → Feed → Prop
  /-- Nothing is kept. -/
  | fresh {l : Lexer} : l.ahead = none → Holds l (.ofCursor l.cursor)
  /-- A token is kept, and the cursor is behind it. -/
  | ahead {l : Lexer} {t : Token} : l.ahead = some t → t.lexeme ≠ .endOfFile →
    Holds l (.token t (.ofCursor l.cursor))
  /-- The end of the source is kept, and the cursor is there. -/
  | atEnd {l : Lexer} : l.ahead = some ⟨.endOfFile, l.position, l.position⟩ →
    l.cursor.scan = (.ok ⟨.endOfFile, l.position, l.position⟩, l.cursor) → Holds l (.done l.position)

variable {l : Lexer} {f : Feed}

/-- A request to a lexer that keeps nothing scans. -/
theorem ask_of_none (h : l.ahead = none) (q : Request) : (l.ask q).1 = l.cursor.scan.1 := by
  cases q with
  | next => exact congrArg Prod.fst (next_of_none h)
  | peek =>
    rw [ask, peek, h]
    match l.cursor.scan with
    | (.ok t, after) => rfl
    | (.error d, after) => rfl

/-- A request gives the first item of the feed, and unless this is a fault, the lexer goes on with what the
feed has left. -/
theorem Holds.ask (h : l.Holds f) (q : Request) :
    (l.ask q).1 = f.head ∧ ∀ t, f.head = .ok t → (l.ask q).2.Holds (q.rest f) := by
  cases h with
  | ahead kept ne =>
    cases q with
    | next =>
      rw [Lexer.ask, next, kept]
      exact ⟨rfl, fun _ _ => .fresh rfl⟩
    | peek =>
      rw [Lexer.ask, peek, kept]
      exact ⟨rfl, fun _ _ => .ahead kept ne⟩
  | atEnd kept scans =>
    cases q with
    | next =>
      have done : Feed.done l.position = .ofCursor l.cursor := (Feed.ofCursor_of_done scans).symm
      rw [Lexer.ask, next, kept]
      refine ⟨rfl, fun _ _ => ?_⟩
      rw [Request.rest, Feed.tail, done]
      exact .fresh rfl
    | peek =>
      rw [Lexer.ask, peek, kept]
      exact ⟨rfl, fun _ _ => .atEnd kept scans⟩
  | fresh none =>
    rw [ask_of_none none]
    match scanned : l.cursor.scan with
    | (.error d, after) =>
      rw [Feed.ofCursor_of_error scanned]
      exact ⟨rfl, nofun⟩
    | (.ok t, after) =>
      by_cases done : t.lexeme = .endOfFile
      · -- The scan stops at the end of the text, and would find the end there again.
        obtain ⟨again, eq⟩ := Cursor.scan_again scanned done
        rw [eq] at scanned again
        rw [Feed.ofCursor_of_done scanned, eq]
        refine ⟨rfl, fun _ _ => ?_⟩
        cases q with
        | next =>
          rw [Lexer.ask, next_of_none none, scanned, Request.rest, Feed.tail, ← Feed.ofCursor_of_done again]
          exact .fresh none
        | peek =>
          rw [Lexer.ask, peek, none]
          simp only [scanned]
          exact .atEnd rfl again
      · rw [Feed.ofCursor_of_token scanned done]
        refine ⟨rfl, fun _ _ => ?_⟩
        cases q with
        | next =>
          rw [Lexer.ask, next_of_none none, scanned]
          exact .fresh none
        | peek =>
          rw [Lexer.ask, peek, none]
          simp only [scanned]
          exact .ahead rfl done

theorem holds_ofSource (source : String) : (ofSource source).Holds (.ofSource source) :=
  .fresh rfl

/-! ### Sequences of requests -/

theorem answers_cons_of_ok {q : Request} {t : Token} (h : (l.ask q).1 = .ok t) (qs : List Request) :
    l.answers (q :: qs) = .ok t :: (l.ask q).2.answers qs := by
  rw [answers]
  match asked : l.ask q with
  | (.ok u, after) =>
    rw [asked] at h
    cases h
    rfl
  | (.error d, after) =>
    rw [asked] at h
    cases h

theorem answers_cons_of_error {q : Request} {d : Diagnostic} (h : (l.ask q).1 = .error d) (qs : List Request) :
    l.answers (q :: qs) = [.error d] := by
  rw [answers]
  match asked : l.ask q with
  | (.ok u, after) =>
    rw [asked] at h
    cases h
  | (.error e, after) =>
    rw [asked] at h
    cases h
    rfl

/-- Every answer is the item behind as many as were handed out before. -/
theorem Holds.answers_eq (h : l.Holds f) (qs : List Request) {i : Nat} {a : Except Diagnostic Token}
    (answered : (l.answers qs)[i]? = some a) : a = (f.drop ((qs.take i).count .next)).head := by
  induction qs generalizing l f i with
  | nil => cases answered
  | cons q qs ih =>
    obtain ⟨first, rest⟩ := h.ask q
    cases head : f.head with
    | error d =>
      rw [answers_cons_of_error (first.trans head)] at answered
      obtain ⟨rfl, rfl⟩ : i = 0 ∧ a = .error d := by
        cases i with
        | zero => exact ⟨rfl, (Option.some.inj answered).symm⟩
        | succ i => cases answered
      exact head.symm
    | ok t =>
      rw [answers_cons_of_ok (first.trans head)] at answered
      cases i with
      | zero =>
        cases answered
        exact head.symm
      | succ i =>
        rw [ih (rest t head) answered, List.take_succ_cons]
        cases q with
        | next => rw [List.count_cons_self]; rfl
        | peek => rw [List.count_cons_of_ne (by decide)]; rfl

/-- Requests are answered up to the last one or up to a fault. -/
theorem length_answers (l : Lexer) (qs : List Request) :
    (l.answers qs).length = qs.length ∨ ∃ d, (l.answers qs).getLast? = some (.error d) := by
  induction qs generalizing l with
  | nil => exact .inl rfl
  | cons q qs ih =>
    cases asked : (l.ask q).1 with
    | error d =>
      rw [answers_cons_of_error asked]
      exact .inr ⟨d, rfl⟩
    | ok t =>
      rw [answers_cons_of_ok asked]
      obtain length | ⟨d, last⟩ := ih (l.ask q).2
      · exact .inl (congrArg (· + 1) length)
      · exact .inr ⟨d, by rw [List.getLast?_cons, last]; rfl⟩

/-- To show a token gives the same answer as to hand it out, after any requests. -/
theorem Holds.answers_peek (h : l.Holds f) (qs : List Request) :
    l.answers (qs ++ [.peek]) = l.answers (qs ++ [.next]) := by
  induction qs generalizing l f with
  | nil =>
    obtain ⟨shown, -⟩ := h.ask .peek
    obtain ⟨handed, -⟩ := h.ask .next
    cases head : f.head with
    | error d =>
      rw [List.nil_append, List.nil_append, answers_cons_of_error (shown.trans head),
        answers_cons_of_error (handed.trans head)]
    | ok t =>
      rw [List.nil_append, List.nil_append, answers_cons_of_ok (shown.trans head),
        answers_cons_of_ok (handed.trans head)]
      rfl
  | cons q qs ih =>
    obtain ⟨first, rest⟩ := h.ask q
    cases head : f.head with
    | error d =>
      rw [List.cons_append, List.cons_append, answers_cons_of_error (first.trans head),
        answers_cons_of_error (first.trans head)]
    | ok t =>
      rw [List.cons_append, List.cons_append, answers_cons_of_ok (first.trans head),
        answers_cons_of_ok (first.trans head), ih (rest t head)]

/-- A token that was shown is the next answer. -/
theorem Holds.answers_succ (h : l.Holds f) {qs : List Request} {i : Nat} {t : Token}
    (shown : (l.answers qs)[i]? = some (.ok t)) (peek : qs[i]? = some .peek) (more : i + 1 < qs.length) :
    (l.answers qs)[i + 1]? = some (.ok t) := by
  cases next : (l.answers qs)[i + 1]? with
  | some a =>
    have same : (qs.take (i + 1)).count .next = (qs.take i).count .next := by
      rw [List.take_add_one, peek, List.count_append]
      rfl
    rw [h.answers_eq qs next, same, ← h.answers_eq qs shown]
  | none =>
    -- The answers would end with the token, although requests are left.
    have last := (List.getElem?_eq_some_iff.1 shown).1
    have none := List.getElem?_eq_none_iff.1 next
    obtain all | ⟨d, fault⟩ := l.length_answers qs
    · omega
    · rw [List.getLast?_eq_getElem?, show (l.answers qs).length - 1 = i by omega, shown] at fault
      cases fault

/-- However often a token is shown, it is the answer until it is handed out. -/
theorem Holds.answers_of_peeks (h : l.Holds f) {qs : List Request} {i j : Nat} {t : Token}
    (shown : (l.answers qs)[i]? = some (.ok t)) (le : i ≤ j) (peeks : ∀ k, i ≤ k → k < j → qs[k]? = some .peek)
    (more : j < qs.length) : (l.answers qs)[j]? = some (.ok t) := by
  induction j, le using Nat.le_induction with
  | base => exact shown
  | succ j le ih =>
    have before := ih (fun k ge lt => peeks k ge (Nat.lt_succ_of_lt lt)) (Nat.lt_of_succ_lt more)
    exact h.answers_succ before (peeks j le (Nat.lt_succ_self j)) more

/-- Look-ahead does not show. Whatever a lexer is asked for, up to the first fault each answer is the item of the
stream behind as many as were handed out before, and the end of the source once the stream has ended. To
show an item gives what handing it out gives, and goes on giving it, and the first fault is the one that
scanning the whole source reports. -/
theorem answers_transparent (source : String) (qs : List Request) :
    let stream := (Feed.ofSource source).items
    let answers := (ofSource source).answers
    (∀ i a, (answers qs)[i]? = some a →
      stream[min ((qs.take i).count .next) (stream.length - 1)]? = some a) ∧
    ((answers qs).length = qs.length ∨ ∃ d, (answers qs).getLast? = some (.error d)) ∧
    answers (qs ++ [.peek]) = answers (qs ++ [.next]) ∧
    (∀ i j t, (answers qs)[i]? = some (.ok t) → i ≤ j → (∀ k, i ≤ k → k < j → qs[k]? = some .peek) →
      j < qs.length → (answers qs)[j]? = some (.ok t)) ∧
    (∀ d, .error d ∈ answers qs → tokenize source = .error d) ∧
    (∀ k, (ofSource source).pulled k = stream[k]?) ∧
    ∀ ts, tokenize source = .ok ts → stream = ts.map .ok := by
  have holds := holds_ofSource source
  refine ⟨fun i a answered => ?_, length_answers _ qs, holds.answers_peek qs,
    fun i j t shown le peeks more => holds.answers_of_peeks shown le peeks more, fun d mem => ?_,
    pulled_eq rfl rfl, fun ts scanned => ?_⟩
  · rw [holds.answers_eq qs answered]
    exact Feed.items_head_drop _ _
  · obtain ⟨i, answered⟩ := List.mem_iff_getElem?.1 mem
    exact Feed.tokenize_eq_error_iff.2 (Feed.fault?_of_head (holds.answers_eq qs answered).symm)
  · rw [tokenize, Feed.mapM_items] at scanned
    rw [Feed.items_eq]
    split at scanned
    · cases scanned
    · next none =>
      cases scanned
      rw [none]
      exact List.append_nil _

end Lexer

end CZero
