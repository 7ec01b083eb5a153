import CZero.Proofs.Lowering.Holes
import CZero.Proofs.Lowering.Source

/-!
# Sentences

What the language of the grammar has to do with analysis, for a source that can be split into tokens:

    the tokens are a sentence          the tree has no hole, and analysis finds no fault of the grammar
    analysis accepts                   the tokens are a sentence
    analysis expects another token     no sentence begins like the source up to the token it names, and
                                       some sentence begins like the source before that token
-/

namespace CZero

/-! ### The tokens of a source -/

namespace Feed

/-- What stands before the end of the source is no end of the source. -/
theorem token_ofCursor {c : Cursor} {t : Token} {rest : Feed} (h : ofCursor c = .token t rest) :
    t.lexeme ≠ .endOfFile ∧ ∃ after, ofCursor after = rest := by
  rw [ofCursor] at h
  split at h
  · cases h
  · next t after scanned =>
    split at h
    · cases h
    · next ne =>
      cases h
      exact ⟨ne, after, rfl⟩

theorem ends_ofCursor {c : Cursor} {ts : List Token} (h : (ofCursor c).items.mapM id = .ok ts) :
    (ofCursor c).Ends ∧ (ofCursor c).tokens = ts := by
  generalize eq : ofCursor c = f at h ⊢
  induction f generalizing c ts with
  | stuck d => cases h
  | done p =>
    cases h
    exact ⟨trivial, rfl⟩
  | token t rest ih =>
    obtain ⟨ne, after, eq'⟩ := token_ofCursor eq
    rw [items, List.mapM_cons] at h
    cases split : rest.items.mapM id with
    | error d =>
      rw [split] at h
      cases h
    | ok ts' =>
      rw [split] at h
      cases h
      obtain ⟨ends, tokens⟩ := ih eq' split
      exact ⟨⟨ne, ends⟩, congrArg (t :: ·) tokens⟩

/-- A source that can be split into tokens has a feed with these tokens. -/
theorem ends_ofSource {source : String} {ts : List Token} (h : tokenize source = .ok ts) :
    (ofSource source).Ends ∧ (ofSource source).tokens = ts :=
  ends_ofCursor h

end Feed

/-! ### A tree without faults has no hole -/

mutual

theorem Expr.isWhole_of_faults : (e : Expr) → e.faults = [] → e.IsWhole
  | .hole _, h => nomatch h
  | .cutOff _ _, h => nomatch (List.append_eq_nil_iff.1 h).2
  | .uint _, _ | .double _, _ | .string _, _ | .char _, _ | .load _, _ => trivial
  | .assign _ e, h | .paren e, h | .neg _ e, h | .cast e _, h => e.isWhole_of_faults h
  | .call _ as, h => as.isWhole_of_faults h
  | .arith _ lhs rhs, h | .compare _ lhs rhs, h =>
    have parts := List.append_eq_nil_iff.1 h
    ⟨lhs.isWhole_of_faults parts.1, rhs.isWhole_of_faults parts.2⟩

theorem Args.isWhole_of_faults : (as : Args) → as.faults = [] → as.IsWhole
  | .close, _ => trivial
  | .cutOff _, h => nomatch h
  | .arg e rest, h =>
    have parts := List.append_eq_nil_iff.1 h
    ⟨e.isWhole_of_faults parts.1, rest.isWhole_of_faults parts.2⟩

end

theorem isWhole_of_optionalFaults {value : Option Expr} (h : optionalFaults value = []) :
    ∀ e ∈ value, e.IsWhole := by
  rintro e ⟨⟩
  exact e.isWhole_of_faults h

theorem Decl.isWhole_of_faults {d : Decl} (h : d.faults = []) : d.IsWhole := by
  have parts := List.append_eq_nil_iff.1 h
  exact ⟨Option.toList_eq_nil_iff.1 parts.2, isWhole_of_optionalFaults parts.1⟩

mutual

theorem Stmt.isWhole_of_faults : (s : Stmt) → s.faults = [] → s.IsWhole
  | .decl _, h => Decl.isWhole_of_faults h
  | .cond c, h => c.isWhole_of_faults h
  | .loop e b, h =>
    have parts := List.append_eq_nil_iff.1 h
    ⟨e.isWhole_of_faults parts.1, b.isWhole_of_faults parts.2⟩
  | .ret _ _, h => isWhole_of_optionalFaults h
  | .block b, h => b.isWhole_of_faults h
  | .empty, _ => trivial
  | .expr e, h => e.isWhole_of_faults h

theorem Block.isWhole_of_faults : (b : Block) → b.faults = [] → b.IsWhole
  | .close, _ => trivial
  | .cutOff _, h => nomatch h
  | .stmt s rest, h =>
    have parts := List.append_eq_nil_iff.1 h
    ⟨s.isWhole_of_faults parts.1, rest.isWhole_of_faults parts.2⟩

theorem IfChain.isWhole_of_faults : (c : IfChain) → c.faults = [] → c.IsWhole
  | .mk e b o, h =>
    have parts := List.append_eq_nil_iff.1 h
    have blocks := List.append_eq_nil_iff.1 parts.2
    ⟨e.isWhole_of_faults parts.1, b.isWhole_of_faults blocks.1, o.isWhole_of_faults blocks.2⟩

theorem Else.isWhole_of_faults : (o : Else) → o.faults = [] → o.IsWhole
  | .absent, _ => trivial
  | .block b, h => b.isWhole_of_faults h
  | .chain c, h => c.isWhole_of_faults h

end

theorem exists_ok_of_missing {α : Type} {x : Except Diagnostic α} (h : missing x = []) : ∃ a, x = .ok a := by
  cases x with
  | ok a => exact ⟨a, rfl⟩
  | error d => cases h

theorem Item.isWhole_of_faults {i : Item} (h : i.faults = []) : i.IsWhole := by
  cases i with
  | fn f =>
    have parts := List.append_eq_nil_iff.1 h
    exact ⟨exists_ok_of_missing parts.1, f.body.isWhole_of_faults parts.2⟩
  | decl d => exact Decl.isWhole_of_faults h

theorem Program.isWhole_of_faults {p : Program} (h : p.faults = []) : p.IsWhole := by
  have parts := List.append_eq_nil_iff.1 h
  exact ⟨fun i mem => Item.isWhole_of_faults (List.flatMap_eq_nil_iff.1 parts.1 i mem),
    exists_ok_of_missing parts.2⟩

/-! ### Sentences -/

/-- The tokens before the end of the source are a string of the language. -/
def IsSentence (ts : List Token) : Prop :=
  ∃ w ∈ grammar.language, kinds ts = w.map some ++ [none]

/-- Some string of the language, with the end of the source behind it, begins with these tokens. -/
def BeginsSentence (ts : List Token) : Prop :=
  ∃ w ∈ grammar.language, kinds ts <+: w.map some ++ [none]

theorem beginsSentence_iff {ts : List Token} :
    BeginsSentence ts ↔ Grammar.Viable [.nonterminal .program] (kinds ts) := by
  simp only [BeginsSentence, Grammar.Viable, Grammar.mem_language_iff]

theorem IsSentence.begins {u v : List Token} (h : IsSentence (u ++ v)) : BeginsSentence u := by
  obtain ⟨w, mem, eq⟩ := h
  have cut : kinds (u ++ v) = kinds u ++ kinds v := List.map_append
  exact ⟨w, mem, eq ▸ cut ▸ List.prefix_append _ _⟩

/-- Diagnostic `d` is about the first token that cannot belong to a sentence. -/
def IsFirstOutside (d : Diagnostic) (ts : List Token) : Prop :=
  ∃ seen t rest expected, ts = seen ++ t :: rest ∧
    d = ⟨.expectedToken expected t.lexeme.describe, t.start⟩ ∧
    BeginsSentence seen ∧ ¬BeginsSentence (seen ++ [t])

theorem IsFirstOutside.not_isSentence {d : Diagnostic} {ts : List Token} (h : IsFirstOutside d ts) :
    ¬IsSentence ts := by
  obtain ⟨seen, t, rest, expected, rfl, -, -, outside⟩ := h
  rw [List.append_cons]
  exact fun sentence => outside sentence.begins

/-- The tokens of a source are a sentence and its tree has no fault, or all its faults are about the
first token that cannot belong to a sentence. -/
theorem isSentence_or_isFirstOutside {source : String} {ts : List Token} (h : tokenize source = .ok ts) :
    IsSentence ts ∧ (Program.ofSource source).faults = [] ∨
      (∃ d, (Program.ofSource source).finish = .error d) ∧
        ∀ d ∈ (Program.ofSource source).faults, IsFirstOutside d ts := by
  obtain ⟨ends, rfl⟩ := Feed.ends_ofSource h
  obtain ⟨r, descends, done⟩ := Grammar.descends_items (f := .ofSource source) rfl (.inl ends)
  have faults : ∀ d ∈ (Program.ofSource source).faults, r = .stuck d := descends.faults
  obtain ⟨left, u, v, tokens, eq, yields⟩ | ⟨d, rfl, refuses⟩ :=
    descends.follows.takes_or_refuses ends Grammar.stacked_program
  · have none : (Program.ofSource source).faults = [] := by
      refine List.eq_nil_iff_forall_not_mem.2 fun d mem => ?_
      rw [faults d mem] at left
      exact left
    obtain ⟨p, finish⟩ := exists_ok_of_missing (List.append_eq_nil_iff.1 none).2
    obtain rfl := done p finish
    refine .inl ⟨⟨v, Grammar.mem_language_iff.2 yields, ?_⟩, none⟩
    rw [tokens, kinds, List.map_append]
    exact congrArg (· ++ [Option.none]) eq
  · refine .inr ⟨?_, fun d' mem => ?_⟩
    · cases finish : (Program.ofSource source).finish with
      | ok p => exact nomatch done p finish
      | error d => exact ⟨d, rfl⟩
    · obtain ⟨⟩ := faults d' mem
      obtain ⟨seen, t, rest, expected, tokens, eq, viable, outside⟩ := refuses
      exact ⟨seen, t, rest, expected, tokens, eq, beginsSentence_iff.2 viable, mt beginsSentence_iff.1 outside⟩

/-- The parser reads a source to its end exactly if the source is a sentence. -/
theorem isWhole_iff_isSentence {source : String} {ts : List Token} (h : tokenize source = .ok ts) :
    (Program.ofSource source).IsWhole ↔ IsSentence ts := by
  obtain ⟨sentence, faults⟩ | ⟨⟨d, finish⟩, outside⟩ := isSentence_or_isFirstOutside h
  · exact ⟨fun _ => sentence, fun _ => Program.isWhole_of_faults faults⟩
  · have mem : d ∈ (Program.ofSource source).faults :=
      List.mem_append_right _ (by rw [finish]; exact .head _)
    constructor
    · rintro ⟨-, p, finish'⟩
      rw [finish] at finish'
      cases finish'
    · exact fun sentence => absurd sentence (outside d mem).not_isSentence

/-- The parser accepts exactly the sentences of the grammar. What analysis accepts is a sentence, and
when it expects another token, then at the first one that cannot belong to a sentence. -/
theorem analyse_sentence {source : String} {ts : List Token} (h : tokenize source = .ok ts) :
    ((Program.ofSource source).IsWhole ↔ IsSentence ts) ∧
      match analyse source with
      | .ok _ => IsSentence ts
      | .error d => d.cause.isGrammar → IsFirstOutside d ts ∧ ¬IsSentence ts := by
  refine ⟨isWhole_iff_isSentence h, ?_⟩
  have spec := (Program.ofSource source).analyse_spec
  cases eq : analyse source with
  | ok a =>
    rw [show (Program.ofSource source).analyse = .ok a from eq] at spec
    exact (isWhole_iff_isSentence h).1 spec.1.isWhole
  | error d =>
    intro grammar
    have mem := Program.mem_faults_of_analyse eq grammar
    obtain ⟨-, faults⟩ | ⟨-, outside⟩ := isSentence_or_isFirstOutside h
    · rw [faults] at mem
      cases mem
    · exact ⟨outside d mem, (outside d mem).not_isSentence⟩

set_option maxRecDepth 100000 in
/-- An assigned comparison can be compared once more, and not twice. -/
theorem analyse_sentence_comparisons :
    ∃ source ts d, source = "let a: int; fn main() -> void { a = 1 < 2 < 3 < 4; }" ∧
      tokenize source = .ok ts ∧ analyse source = .error d ∧
      d.message = "1:47: expected ';', found '<'" ∧ IsFirstOutside d ts ∧ ¬IsSentence ts := by
  obtain ⟨source, eq⟩ : ∃ source, source = "let a: int; fn main() -> void { a = 1 < 2 < 3 < 4; }" := ⟨_, rfl⟩
  have tokens : (tokenize source).toOption.isSome := by
    subst eq
    decide +kernel
  have fault : (match analyse source with
      | .ok _ => none
      | .error d => some (d.cause.isGrammar, d.message)) = some (true, "1:47: expected ';', found '<'") := by
    subst eq
    decide +kernel
  cases ht : tokenize source with
  | error d =>
    rw [ht] at tokens
    cases tokens
  | ok ts =>
    have spec := (analyse_sentence ht).2
    cases ha : analyse source with
    | ok a =>
      rw [ha] at fault
      cases fault
    | error d =>
      rw [ha] at fault spec
      obtain ⟨grammar, message⟩ := Prod.mk.inj (Option.some.inj fault)
      exact ⟨source, ts, d, eq, ht, ha, message, spec grammar⟩

end CZero
