import CZero.Proofs.Grammar.Basic
import CZero.Proofs.Semantics.Eval

/-!
# The words of a source

The names and string literals of a tree are those of its tokens, in the same order, and none is longer
than the source it was read from: an escape takes two characters and stands for one.

    source    let s: int = "a\n";  f(s);
    words     s  int  a⏎  f  s
-/

namespace CZero

open scoped List

/-! ### Tokens -/

/-- The name or the text that a lexeme holds. -/
def Lexeme.word? : Lexeme → Option String
  | .ident name => some name
  | .string text => some text
  | _ => none

namespace Scan

theorem length_stringBody_le {taken n : Nat} {cs text : List Char} (h : stringBody taken cs = (.ok text, n)) :
    text.length ≤ cs.length := by
  fun_induction stringBody taken cs generalizing text n with
  | case1 | case2 | case4 | case5 => cases h
  | case3 taken c cs meaning _ body m eq ih =>
    cases body with
    | error e => cases h
    | ok body =>
      cases h
      have := ih eq
      simp only [List.length_cons]
      omega
  | case6 =>
    cases h
    exact Nat.zero_le _
  | case7 taken c cs _ _ _ _ body m eq ih =>
    cases body with
    | error e => cases h
    | ok body =>
      cases h
      have := ih eq
      simp only [List.length_cons]
      omega

theorem word?_of_char {cs : List Char} {l : Lexeme} (h : (charTail cs).outcome = .ok l) : l.word? = none := by
  have close : ∀ taken meaning cs, (charClose taken meaning cs).outcome = .ok l → l.word? = none := by
    intro taken meaning cs h
    revert h
    fun_cases charClose <;> rintro ⟨⟩
    rfl
  revert h
  fun_cases charTail
  case case5 => exact close _ _ _
  case case7 => exact close _ _ _
  all_goals rintro ⟨⟩

theorem word?_of_number {cs : List Char} {l : Lexeme} (h : (number cs).outcome = .ok l) : l.word? = none := by
  have integer : ∀ ds, (number.integer ds).outcome = .ok l → l.word? = none := by
    intro ds h
    unfold number.integer at h
    dsimp only at h
    split at h <;> cases h
    rfl
  unfold number at h
  dsimp only at h
  split at h
  · split at h
    · exact integer _ h
    · cases h
      rfl
  · exact integer _ h

/-- A lexeme holds no more characters than there were. -/
theorem length_word_le {c : Char} {cs : List Char} {l : Lexeme} {s : String}
    (h : (lexeme c cs).outcome = .ok l) (word : l.word? = some s) : s.length ≤ (c :: cs).length := by
  unfold lexeme at h
  split at h
  · cases h
    cases word
  split at h
  · -- A string literal, without its quotes.
    unfold stringTail at h
    cases eq : stringBody 1 cs with
    | mk text n =>
      rw [eq] at h
      cases text with
      | error e => cases h
      | ok text =>
        cases h
        cases word
        have := length_stringBody_le eq
        rw [String.length_ofList, List.length_cons]
        omega
  split at h
  · rw [word?_of_char h] at word
    cases word
  split at h
  · rw [word?_of_number h] at word
    cases word
  split at h
  · unfold Scan.word at h
    dsimp only at h
    split at h <;> cases h <;> cases word
    rw [String.length_ofList]
    exact (List.takeWhile_sublist _).length_le
  · cases h

end Scan

theorem Cursor.length_word_le {c after : Cursor} {t : Token} {s : String} (h : c.scan = (.ok t, after))
    (word : t.lexeme.word? = some s) : s.length ≤ c.rest.length := by
  have skipped := skip_length_le false c.rest c.position
  unfold scan skipBlanks at h
  dsimp only at h
  split at h
  · cases h
    cases word
  · next ch cs rest =>
    split at h
    · next l found =>
      cases h
      have le := Scan.length_word_le found word
      rw [rest] at skipped
      omega
    · cases h

namespace Feed

/-- The names and texts of the tokens to come. -/
def words : Feed → List String
  | .token t rest => t.lexeme.word?.toList ++ rest.words
  | .done _ | .stuck _ => []

theorem length_le_of_mem_words (c : Cursor) : ∀ s ∈ (ofCursor c).words, s.length ≤ c.rest.length := by
  rw [ofCursor]
  split
  · rintro s ⟨⟩
  · next t after h =>
    split
    · rintro s ⟨⟩
    · next ne =>
      have shorter := Cursor.scan_shorter h ne
      have ih := length_le_of_mem_words after
      intro s mem
      rcases List.mem_append.1 mem with word | rest
      · exact Cursor.length_word_le h (Option.mem_toList.1 word)
      · exact Nat.le_trans (ih s rest) (Nat.le_of_lt shorter)
termination_by c.rest.length

variable {f r : Feed}

theorem Eats.words {l : Lexeme} (h : f.Eats l r) : f.words = l.word?.toList ++ r.words := by
  obtain ⟨t, rfl, rfl⟩ := h
  rfl

theorem Eats.sublist {l : Lexeme} (h : f.Eats l r) : r.words <+ f.words := by
  rw [h.words]
  exact List.sublist_append_right ..

theorem EatsName.words {x : Ident} (h : f.EatsName x r) : f.words = x.name :: r.words := by
  obtain ⟨t, rfl, eq, -⟩ := h
  rw [Feed.words, eq]
  rfl

theorem EatsName.sublist {x : Ident} (h : f.EatsName x r) : r.words <+ f.words := by
  rw [h.words]
  exact List.sublist_cons_self ..

end Feed

namespace Grammar

/-! ### Trees -/

mutual

/-- The string literals of an expression stand in its tokens. -/
theorem IsExpr.words {f : Feed} {e : Expr} {r : Feed} : IsExpr f e r → e.texts ++ r.words <+ f.words
  | .sum h _ => h.words
  | .compare hl hop hr => by
    rw [Expr.texts, List.append_assoc]
    exact ((hr.words.trans hop.sublist).append_left _).trans hl.words

theorem IsSum.words {f : Feed} {e : Expr} {r : Feed} : IsSum f e r → e.texts ++ r.words <+ f.words
  | .mk h more => more.words.trans h.words

theorem IsSums.words {lhs : Expr} {f : Feed} {e : Expr} {r : Feed} :
    IsSums lhs f e r → e.texts ++ r.words <+ lhs.texts ++ f.words
  | .last _ => List.Sublist.refl _
  | .more _ hop h more => by
    have rest := more.words
    rw [Expr.texts, List.append_assoc] at rest
    exact rest.trans ((h.words.trans hop.sublist).append_left _)

theorem IsTerm.words {f : Feed} {e : Expr} {r : Feed} : IsTerm f e r → e.texts ++ r.words <+ f.words
  | .mk h more => more.words.trans h.words

theorem IsTerms.words {lhs : Expr} {f : Feed} {e : Expr} {r : Feed} :
    IsTerms lhs f e r → e.texts ++ r.words <+ lhs.texts ++ f.words
  | .last _ => List.Sublist.refl _
  | .more _ hop h more => by
    have rest := more.words
    rw [Expr.texts, List.append_assoc] at rest
    exact rest.trans ((h.words.trans hop.sublist).append_left _)

theorem IsCast.words {f : Feed} {e : Expr} {r : Feed} : IsCast f e r → e.texts ++ r.words <+ f.words
  | .plain h _ => h.words
  | .cast h as name _ => ((name.sublist.trans as.sublist).append_left _).trans h.words

theorem IsUnary.words {f : Feed} {e : Expr} {r : Feed} : IsUnary f e r → e.texts ++ r.words <+ f.words
  | .neg minus h => by
    rw [Expr.texts_negate]
    exact h.words.trans minus.sublist
  | .primary h => h.words

theorem IsPrimary.words {f : Feed} {e : Expr} {r : Feed} : IsPrimary f e r → e.texts ++ r.words <+ f.words
  | .uint h | .double h | .char h => h.sublist
  | .string h => h.words ▸ List.Sublist.refl _
  | .load h _ _ => h.sublist
  | .assign h eats he => he.words.trans (eats.sublist.trans h.sublist)
  | .callNone h left right => right.sublist.trans (left.sublist.trans h.sublist)
  | .call h left has => has.words.trans (left.sublist.trans h.sublist)
  | .paren left he right => ((right.sublist.append_left _).trans he.words).trans left.sublist

theorem IsArgs.words {f : Feed} {as : Args} {r : Feed} : IsArgs f as r → as.texts ++ r.words <+ f.words
  | .last he right => by
    rw [Args.texts, Args.texts, List.append_nil]
    exact (right.sublist.append_left _).trans he.words
  | .more he comma has => by
    rw [Args.texts, List.append_assoc]
    exact ((has.words.trans comma.sublist).append_left _).trans he.words

end

theorem IsDecl.words {isConst : Bool} {f : Feed} {d : Decl} {r : Feed} (h : IsDecl isConst f d r) :
    d.texts ++ r.words <+ f.words := by
  obtain ⟨name, colon, type, init, semicolon⟩ := h
  have before := (type.sublist.trans colon.sublist).trans name.sublist
  cases init with
  | value eats he =>
    exact ((semicolon.sublist.append_left _).trans he.words).trans (eats.sublist.trans before)
  | none => exact semicolon.sublist.trans before

mutual

/-- The string literals of a statement stand in its tokens. -/
theorem IsStmt.words {f : Feed} {s : Stmt} {r : Feed} : IsStmt f s r → s.texts ++ r.words <+ f.words
  | .letDecl h hd | .constDecl h hd => hd.words.trans h.sublist
  | .cond h hc => hc.words.trans h.sublist
  | .loop h he hb => by
    rw [Stmt.texts, List.append_assoc]
    exact ((hb.words.append_left _).trans he.words).trans h.sublist
  | .ret eq h => h.sublist.trans (Feed.Eats.sublist ⟨_, rfl, eq⟩)
  | .retValue eq he h =>
    ((h.sublist.append_left _).trans he.words).trans (Feed.Eats.sublist ⟨_, rfl, eq⟩)
  | .block h => h.words
  | .empty h => h.sublist
  | .expr he h => (h.sublist.append_left _).trans he.words

theorem IsBlock.words {f : Feed} {b : Block} {r : Feed} : IsBlock f b r → b.texts ++ r.words <+ f.words
  | .mk h hb => hb.words.trans h.sublist

theorem IsBody.words {f : Feed} {b : Block} {r : Feed} : IsBody f b r → b.texts ++ r.words <+ f.words
  | .close h => h.sublist
  | .stmt hs hb => by
    rw [Block.texts, List.append_assoc]
    exact (hb.words.append_left _).trans hs.words

theorem IsIf.words {f : Feed} {c : IfChain} {r : Feed} : IsIf f c r → c.texts ++ r.words <+ f.words
  | .mk he hb ho => by
    rw [IfChain.texts, List.append_assoc, List.append_assoc]
    exact (((ho.words.append_left _).trans hb.words).append_left _).trans he.words

theorem IsElse.words {f : Feed} {o : Else} {r : Feed} : IsElse f o r → o.texts ++ r.words <+ f.words
  | .absent _ => List.Sublist.refl _
  | .block h hb => hb.words.trans h.sublist
  | .chain h hif hc => hc.words.trans (hif.sublist.trans h.sublist)

end

theorem IsParam.sublist {f : Feed} {p : Param} {r : Feed} (h : IsParam f p r) : r.words <+ f.words := by
  cases h with
  | «variable» name colon type => exact type.sublist.trans (colon.sublist.trans name.sublist)
  | const keyword name colon type =>
    exact type.sublist.trans (colon.sublist.trans (name.sublist.trans keyword.sublist))

theorem IsParams.sublist {f : Feed} {ps : List Param} {r : Feed} (h : IsParams f ps r) :
    r.words <+ f.words := by
  induction h with
  | last hp right => exact right.sublist.trans hp.sublist
  | more hp comma _ ih => exact ih.trans (comma.sublist.trans hp.sublist)

theorem IsParamList.sublist {f : Feed} {ps : List Param} {r : Feed} (h : IsParamList f ps r) :
    r.words <+ f.words := by
  cases h with
  | none right => exact right.sublist
  | some h => exact h.sublist

end Grammar

/-- The name of a function, and the string literals of a part of a program. -/
def Item.words : Item → List String
  | .fn f => f.name.name :: f.body.texts
  | .decl d => d.texts

namespace Grammar

theorem IsItem.words {f : Feed} {i : Item} {r : Feed} (h : IsItem f i r) : i.words ++ r.words <+ f.words := by
  cases h with
  | fn keyword name left params arrow type body =>
    have before := (type.sublist.trans arrow.sublist).trans (params.sublist.trans left.sublist)
    have inside := body.words.trans before
    refine List.Sublist.trans ?_ keyword.sublist
    rw [name.words]
    exact inside.cons_cons _
  | letDecl h hd | constDecl h hd => exact hd.words.trans h.sublist

/-- The functions and string literals of a program stand in its source. -/
theorem IsProgram.words {f : Feed} {p : Program} (h : IsProgram f p) :
    p.items.flatMap Item.words <+ f.words := by
  induction h with
  | done => exact List.nil_sublist _
  | item hi _ ih => exact (ih.append_left _).trans hi.words

/-- No word of a program is longer than its source. -/
theorem length_word_le {source : String} {p : Program} (h : IsProgram (.ofSource source) p) {i : Item}
    (mem : i ∈ p.items) {s : String} (word : s ∈ i.words) : s.length ≤ source.length := by
  have inside := h.words.subset (List.mem_flatMap.2 ⟨i, mem, word⟩)
  have le := Feed.length_le_of_mem_words (.ofSource source) s inside
  rwa [Cursor.ofSource, String.length_toList] at le

end Grammar

end CZero
