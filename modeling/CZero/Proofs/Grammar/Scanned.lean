import CZero.Proofs.Grammar.Parser
import CZero.Proofs.Grammar.Words

/-!
# What the trees of sources are made of

Not every tree comes from a source. One that does looks up only names that an identifier can spell,
and what its holes complain about is the text or the order of its tokens, also where the source is no
program.

    source    f(x) + ;
    names     f  x
    hole      expected identifier or integer or …, found ';'

Both are true of the tokens, and every reader keeps them: that is `IsScanned`, of a feed and of each
kind of tree.
-/

namespace CZero

/-- A word that an identifier can spell. -/
def IsName (name : String) : Prop :=
  ∀ c ∈ name.toList, Scan.isWordPart c

/-- The fault lies in the characters of a token or in the order of the tokens. -/
def Cause.IsSyntactic (cause : Cause) : Prop :=
  cause.isLexical ∨ cause.isGrammar

/-! ### Tokens -/

namespace Scan

theorem isLexical_of_stringBody {taken n : Nat} {cs : List Char} {fault : Cause × Nat}
    (h : stringBody taken cs = (.error fault, n)) : fault.1.isLexical := by
  fun_induction stringBody taken cs generalizing n with
  | case1 | case2 | case4 | case5 =>
    cases h
    rfl
  | case3 taken c cs meaning _ body m eq ih =>
    cases body with
    | error e =>
      cases h
      exact ih eq
    | ok body => cases h
  | case6 => cases h
  | case7 taken c cs _ _ _ _ body m eq ih =>
    cases body with
    | error e =>
      cases h
      exact ih eq
    | ok body => cases h

theorem isLexical_of_char {cs : List Char} {fault : Cause × Nat}
    (h : (charTail cs).outcome = .error fault) : fault.1.isLexical := by
  have close : ∀ taken meaning cs, (charClose taken meaning cs).outcome = .error fault →
      fault.1.isLexical := by
    intro taken meaning cs h
    revert h
    fun_cases charClose <;> rintro ⟨⟩ <;> rfl
  revert h
  fun_cases charTail
  case case5 => exact close _ _ _
  case case7 => exact close _ _ _
  all_goals
    rintro ⟨⟩
    rfl

theorem isLexical_of_number {cs : List Char} {fault : Cause × Nat}
    (h : (number cs).outcome = .error fault) : fault.1.isLexical := by
  have integer : ∀ ds, (number.integer ds).outcome = .error fault → fault.1.isLexical := by
    intro ds h
    unfold number.integer at h
    dsimp only at h
    split at h <;> cases h
    rfl
  unfold number at h
  dsimp only at h
  split at h
  · split at h
    · exact integer _ h
    · cases h
  · exact integer _ h

/-- A scan fails at a character. -/
theorem isLexical_of_lexeme {c : Char} {cs : List Char} {fault : Cause × Nat}
    (h : (lexeme c cs).outcome = .error fault) : fault.1.isLexical := by
  unfold lexeme at h
  split at h
  · cases h
  split at h
  · unfold stringTail at h
    cases eq : stringBody 1 cs with
    | mk text n =>
      rw [eq] at h
      cases text with
      | error e =>
        cases h
        exact isLexical_of_stringBody eq
      | ok text => cases h
  split at h
  · exact isLexical_of_char h
  split at h
  · exact isLexical_of_number h
  split at h
  · unfold Scan.word at h
    dsimp only at h
    split at h <;> cases h
  · cases h
    rfl

/-- An identifier has no other characters than those it may go on with. -/
theorem isName_of_lexeme {c : Char} {cs : List Char} {name : String}
    (h : (lexeme c cs).outcome = .ok (.ident name)) : IsName name := by
  unfold lexeme at h
  split at h
  · cases h
  split at h
  · unfold stringTail at h
    cases eq : stringBody 1 cs with
    | mk text n =>
      rw [eq] at h
      cases text <;> cases h
  split at h
  · cases word?_of_char h
  split at h
  · cases word?_of_number h
  split at h
  · unfold Scan.word at h
    dsimp only at h
    split at h
    · cases h
    · cases h
      intro d mem
      rw [String.toList_ofList] at mem
      exact List.all_eq_true.1 List.all_takeWhile d mem
  · cases h

end Scan

theorem Cursor.isLexical_of_scan {c after : Cursor} {d : Diagnostic} (h : c.scan = (.error d, after)) :
    d.cause.isLexical := by
  unfold scan at h
  dsimp only at h
  split at h
  · cases h
  · split at h
    · cases h
    · next found =>
      cases h
      exact Scan.isLexical_of_lexeme found

theorem Cursor.isName_of_scan {c after : Cursor} {t : Token} {name : String} (h : c.scan = (.ok t, after))
    (ident : t.lexeme = .ident name) : IsName name := by
  unfold scan at h
  dsimp only at h
  split at h
  · cases h
    cases ident
  · split at h
    · next found =>
      cases h
      dsimp only at ident
      rw [ident] at found
      exact Scan.isName_of_lexeme found
    · cases h

namespace Feed

/-- The identifiers to come are names, and nothing stops the reader but a fault of the syntax. -/
def IsScanned : Feed → Prop
  | .token t rest => (∀ name, t.lexeme = .ident name → IsName name) ∧ rest.IsScanned
  | .done _ => True
  | .stuck d => d.cause.IsSyntactic

theorem isScanned_ofCursor (c : Cursor) : (ofCursor c).IsScanned := by
  rw [ofCursor]
  split
  · next h => exact .inl (Cursor.isLexical_of_scan h)
  · next t after h =>
    split
    · exact trivial
    · next ne =>
      have shorter := Cursor.scan_shorter h ne
      exact ⟨fun _ => Cursor.isName_of_scan h, isScanned_ofCursor after⟩
termination_by c.rest.length

variable {f r : Feed}

/-- To want another token is a fault of the grammar, unless there already was a fault. -/
theorem IsScanned.complaint (h : f.IsScanned) (expected : List String) :
    (f.complaint expected).cause.IsSyntactic := by
  cases f with
  | token t rest => exact .inr rfl
  | done p => exact .inr rfl
  | stuck d => exact h

theorem IsScanned.eats {l : Lexeme} (h : f.IsScanned) (eats : f.Eats l r) : r.IsScanned := by
  obtain ⟨t, rfl, -⟩ := eats
  exact h.2

theorem IsScanned.after? {l : Lexeme} {rest : f.Tail} (h : f.IsScanned) (eq : f.after? l = some rest) :
    rest.1.IsScanned :=
  h.eats (eats_of_after? eq)

theorem IsScanned.operator? {α : Type} {pick : Punct → Option α} {op : α} {rest : f.Tail} (h : f.IsScanned)
    (eq : f.operator? pick = some (op, rest)) : rest.1.IsScanned := by
  obtain ⟨p, eats, -⟩ := eats_of_operator? eq
  exact h.eats eats

theorem IsScanned.skip (h : f.IsScanned) (p : Punct) : (f.skip p).1.IsScanned := by
  unfold Feed.skip
  cases eq : f.after? (.punct p) with
  | some rest => exact h.after? eq
  | none => exact h.complaint _

end Feed

/-- What a reader got, if it got it, is `P`, and otherwise it met a fault of the syntax. -/
def Gets {α : Type} (x : Except Diagnostic α) (P : α → Prop) : Prop :=
  match x with
  | .ok a => P a
  | .error d => d.cause.IsSyntactic

theorem Gets.map {α β : Type} {x : Except Diagnostic α} {g : α → β} {P : β → Prop} (h : Gets x (P ∘ g)) :
    Gets (x.map g) P := by
  cases x with
  | ok a => exact h
  | error d => exact h

theorem Feed.IsScanned.ident {f : Feed} {x : Except Diagnostic Ident} {r : f.After} (hf : f.IsScanned)
    (h : f.ident = (x, r)) : Gets x (IsName ·.name) ∧ r.1.IsScanned := by
  have refused (h : Feed.ident.noIdent f = (x, r)) : Gets x (IsName ·.name) ∧ r.1.IsScanned := by
    cases h
    exact ⟨hf.complaint _, hf.complaint _⟩
  cases f with
  | token t rest =>
    obtain ⟨l, start, stop⟩ := t
    cases l with
    | ident name =>
      cases h
      exact ⟨hf.1 name rfl, hf.2⟩
    | _ => exact refused h
  | done p => exact refused h
  | stuck d => exact refused h

/-! ### Expressions -/

mutual

/-- The names that an expression looks up are names, and its holes are faults of the syntax. -/
def Expr.IsScanned : Expr → Prop
  | .hole d => d.cause.IsSyntactic
  | .cutOff e d => e.IsScanned ∧ d.cause.IsSyntactic
  | .uint _ | .double _ | .string _ | .char _ => True
  | .load x => IsName x.name
  | .assign x e => IsName x.name ∧ e.IsScanned
  | .call x as => IsName x.name ∧ as.IsScanned
  | .paren e | .neg _ e | .cast e _ => e.IsScanned
  | .arith _ lhs rhs | .compare _ lhs rhs => lhs.IsScanned ∧ rhs.IsScanned

def Args.IsScanned : Args → Prop
  | .close => True
  | .cutOff d => d.cause.IsSyntactic
  | .arg e rest => e.IsScanned ∧ rest.IsScanned

end

theorem Expr.isScanned_negate (e : Expr) : e.negate.IsScanned ↔ e.IsScanned := by
  cases e <;> exact Iff.rfl

namespace Parse

variable {f : Feed}

theorem scanned_followed {e : Expr} (he : e.IsScanned) (hf : f.IsScanned) : (followed e f).IsScanned := by
  cases f with
  | token t rest => exact he
  | done p => exact he
  | stuck d => exact ⟨he, hf⟩

theorem scanned_loaded {x : Ident} (hx : IsName x.name) (hf : f.IsScanned) : (loaded x f).IsScanned := by
  cases f with
  | token t rest => exact hx
  | done p => exact hx
  | stuck d => exact hf

theorem scanned_noExpr {e : Expr} {r : f.After} (hf : f.IsScanned) (h : noExpr f = (e, r)) :
    e.IsScanned ∧ r.1.IsScanned := by
  cases h
  exact ⟨hf.complaint _, hf.complaint _⟩

mutual

theorem scanned_expr {f : Feed} {e : Expr} {r : f.After} (hf : f.IsScanned) (h : expr f = (e, r)) :
    e.IsScanned ∧ r.1.IsScanned := by
  rw [expr] at h
  split at h
  next lhs g hs =>
  obtain ⟨left, rest⟩ := scanned_sum hf hs
  split at h
  · next op g' eq =>
    split at h
    next rhs r' hs' =>
    cases h
    have lt := g'.2
    have le := g.le
    obtain ⟨right, last⟩ := scanned_sum (rest.operator? eq) hs'
    exact ⟨⟨left, right⟩, last⟩
  · cases h
    exact ⟨left, rest⟩
termination_by f.size * 8 + 6
decreasing_by all_goals omega

theorem scanned_sum {f : Feed} {e : Expr} {r : f.After} (hf : f.IsScanned) (h : sum f = (e, r)) :
    e.IsScanned ∧ r.1.IsScanned := by
  rw [sum] at h
  split at h
  next lhs g ht =>
  split at h
  next e' r' hs =>
  cases h
  have le := g.le
  obtain ⟨left, rest⟩ := scanned_term hf ht
  exact scanned_sumTail left rest hs
termination_by f.size * 8 + 5
decreasing_by all_goals omega

theorem scanned_sumTail {lhs : Expr} {f : Feed} {e : Expr} {r : f.Within} (left : lhs.IsScanned)
    (hf : f.IsScanned) (h : sumTail lhs f = (e, r)) : e.IsScanned ∧ r.1.IsScanned := by
  rw [sumTail] at h
  split at h
  · next op g eq =>
    split at h
    next rhs g' ht =>
    split at h
    next e' r' hs =>
    cases h
    have lt := g.2
    have le := g'.le
    obtain ⟨right, rest⟩ := scanned_term (hf.operator? eq) ht
    have both : (Expr.arith op lhs rhs).IsScanned := ⟨left, right⟩
    exact scanned_sumTail (f := g'.1) both rest hs
  · cases h
    exact ⟨left, hf⟩
termination_by f.size * 8
decreasing_by all_goals omega

theorem scanned_term {f : Feed} {e : Expr} {r : f.After} (hf : f.IsScanned) (h : term f = (e, r)) :
    e.IsScanned ∧ r.1.IsScanned := by
  rw [term] at h
  split at h
  next lhs g hc =>
  split at h
  next e' r' ht =>
  cases h
  have le := g.le
  obtain ⟨left, rest⟩ := scanned_cast hf hc
  exact scanned_termTail left rest ht
termination_by f.size * 8 + 4
decreasing_by all_goals omega

theorem scanned_termTail {lhs : Expr} {f : Feed} {e : Expr} {r : f.Within} (left : lhs.IsScanned)
    (hf : f.IsScanned) (h : termTail lhs f = (e, r)) : e.IsScanned ∧ r.1.IsScanned := by
  rw [termTail] at h
  split at h
  · next op g eq =>
    split at h
    next rhs g' hc =>
    split at h
    next e' r' ht =>
    cases h
    have lt := g.2
    have le := g'.le
    obtain ⟨right, rest⟩ := scanned_cast (hf.operator? eq) hc
    have both : (Expr.arith op lhs rhs).IsScanned := ⟨left, right⟩
    exact scanned_termTail (f := g'.1) both rest ht
  · cases h
    exact ⟨left, hf⟩
termination_by f.size * 8
decreasing_by all_goals omega

theorem scanned_cast {f : Feed} {e : Expr} {r : f.After} (hf : f.IsScanned) (h : cast f = (e, r)) :
    e.IsScanned ∧ r.1.IsScanned := by
  rw [Parse.cast] at h
  split at h
  next operand g hu =>
  obtain ⟨inner, rest⟩ := scanned_unary hf hu
  split at h
  · next g' eq =>
    have behind := rest.after? eq
    split at h
    · next type r' hi =>
      cases h
      have last := (behind.ident hi).2
      exact ⟨scanned_followed (e := .cast operand type) inner last, last⟩
    · next d r' hi =>
      cases h
      have fault := (behind.ident hi).1
      exact ⟨⟨inner, fault⟩, fault⟩
  · cases h
    exact ⟨scanned_followed inner rest, rest⟩
termination_by f.size * 8 + 3
decreasing_by all_goals omega

theorem scanned_unary {f : Feed} {e : Expr} {r : f.After} (hf : f.IsScanned) (h : unary f = (e, r)) :
    e.IsScanned ∧ r.1.IsScanned := by
  rw [unary] at h
  split at h
  · next g eq =>
    split at h
    next operand g' hu =>
    cases h
    have lt := g.2
    obtain ⟨inner, rest⟩ := scanned_unary (f := g.1) (hf.after? eq) hu
    exact ⟨operand.isScanned_negate.2 inner, rest⟩
  · exact scanned_primary hf h
termination_by f.size * 8 + 2
decreasing_by all_goals omega

theorem scanned_primary {f : Feed} {e : Expr} {r : f.After} (hf : f.IsScanned) (h : primary f = (e, r)) :
    e.IsScanned ∧ r.1.IsScanned := by
  match f, r, h with
  | .token t rest, r, h =>
    rw [primary.eq_def] at h
    dsimp only at h
    obtain ⟨ident, hrest⟩ := hf
    split at h
    iterate 4
      · cases h
        exact ⟨trivial, hrest⟩
    · next name hl =>
      have hx : IsName name := ident name hl
      split at h
      · next g hg =>
        have hg := hrest.after? hg
        split at h
        · next r' hr =>
          cases h
          exact ⟨⟨hx, trivial⟩, hg.after? hr⟩
        · cases h
          have lt := g.2
          obtain ⟨arguments, last⟩ := scanned_args hg rfl
          exact ⟨⟨hx, arguments⟩, last⟩
      · split at h
        · next g hg =>
          cases h
          have lt := g.2
          obtain ⟨value, last⟩ := scanned_expr (hrest.after? hg) rfl
          exact ⟨⟨hx, value⟩, last⟩
        · cases h
          exact ⟨scanned_loaded (x := ⟨name, t.start⟩) hx hrest, hrest⟩
    · next p hl =>
      split at h
      · obtain ⟨inner, behind⟩ := scanned_expr hrest rfl
        split at h
        · next r' hr =>
          cases h
          exact ⟨inner, behind.after? hr⟩
        · cases h
          exact ⟨⟨inner, behind.complaint _⟩, behind.complaint _⟩
      · exact scanned_noExpr ⟨ident, hrest⟩ h
    all_goals exact scanned_noExpr ⟨ident, hrest⟩ h
  | .done p, r, h =>
    rw [primary.eq_def] at h
    exact scanned_noExpr hf h
  | .stuck d, r, h =>
    rw [primary.eq_def] at h
    exact scanned_noExpr hf h
termination_by f.size * 8 + 1
decreasing_by all_goals (simp only [Feed.size_token]; omega)

theorem scanned_args {f : Feed} {as : Args} {r : f.After} (hf : f.IsScanned) (h : args f = (as, r)) :
    as.IsScanned ∧ r.1.IsScanned := by
  rw [args] at h
  split at h
  next e g he =>
  obtain ⟨first, rest⟩ := scanned_expr hf he
  split at h
  · next g' eq =>
    split at h
    next more r' ha =>
    cases h
    have lt := g'.2
    have le := g.le
    obtain ⟨others, last⟩ := scanned_args (rest.after? eq) ha
    exact ⟨⟨first, others⟩, last⟩
  · split at h
    · next g' eq =>
      cases h
      exact ⟨⟨first, trivial⟩, rest.after? eq⟩
    · cases h
      exact ⟨⟨first, rest.complaint _⟩, rest.complaint _⟩
termination_by f.size * 8 + 7
decreasing_by all_goals omega

end

end Parse

/-! ### Declarations and statements -/

/-- The same of a declaration. -/
def Decl.IsScanned (d : Decl) : Prop :=
  (∀ e ∈ d.init, e.IsScanned) ∧ ∀ fault ∈ d.cutOff, fault.cause.IsSyntactic

mutual

/-- The same of a statement. -/
def Stmt.IsScanned : Stmt → Prop
  | .decl d => d.IsScanned
  | .cond c => c.IsScanned
  | .loop e body => e.IsScanned ∧ body.IsScanned
  | .ret _ value => ∀ e ∈ value, e.IsScanned
  | .block b => b.IsScanned
  | .empty => True
  | .expr e => e.IsScanned

def Block.IsScanned : Block → Prop
  | .close => True
  | .cutOff d => d.cause.IsSyntactic
  | .stmt s rest => s.IsScanned ∧ rest.IsScanned

def IfChain.IsScanned : IfChain → Prop
  | .mk e body otherwise => e.IsScanned ∧ body.IsScanned ∧ otherwise.IsScanned

def Else.IsScanned : Else → Prop
  | .absent => True
  | .block b => b.IsScanned
  | .chain c => c.IsScanned

end

namespace Parse

variable {f : Feed}

theorem scanned_initial (isConst : Bool) {init : Option Expr} {r : f.Within} (hf : f.IsScanned)
    (h : initial isConst f = (init, r)) : (∀ e ∈ init, e.IsScanned) ∧ r.1.IsScanned := by
  rw [initial] at h
  split at h
  · next g eq =>
    cases h
    obtain ⟨value, last⟩ := scanned_expr (hf.after? eq) rfl
    exact ⟨by simpa using value, last⟩
  · split at h
    · cases h
      exact ⟨fun _ hole => Option.some.inj hole ▸ hf.complaint _, hf.complaint _⟩
    · cases h
      exact ⟨nofun, hf⟩

theorem scanned_decl (isConst : Bool) {x : Except Diagnostic Decl} {r : f.After} (hf : f.IsScanned)
    (h : decl isConst f = (x, r)) : Gets x Decl.IsScanned ∧ r.1.IsScanned := by
  rw [decl] at h
  split at h
  · next d r' hx =>
    cases h
    exact hf.ident hx
  next name g hx =>
  have colon := (hf.ident hx).2.skip .colon
  dsimp only at h
  split at h
  · next d r' ht =>
    cases h
    exact colon.ident ht
  next type g' ht =>
  obtain ⟨init, behind⟩ := scanned_initial isConst (colon.ident ht).2 (Prod.eta _).symm
  split at h
  · next g'' eq =>
    cases h
    exact ⟨⟨init, by simp⟩, behind.after? eq⟩
  · cases h
    exact ⟨⟨init, by simpa using behind.complaint _⟩, behind.complaint _⟩

theorem scanned_declStmt {x : Except Diagnostic Decl} (h : Gets x Decl.IsScanned) :
    (declStmt x).IsScanned := by
  cases x with
  | ok d => exact h
  | error d => exact h

theorem scanned_result {value : Option Expr} {r : f.After} (hf : f.IsScanned) (h : result f = (value, r)) :
    (∀ e ∈ value, e.IsScanned) ∧ r.1.IsScanned := by
  rw [result] at h
  split at h
  · next g eq =>
    cases h
    exact ⟨by simp, hf.after? eq⟩
  · cases h
    obtain ⟨value, behind⟩ := scanned_expr hf rfl
    exact ⟨by simpa using value, behind.skip _⟩

theorem scanned_exprStmt {s : Stmt} {r : f.After} (hf : f.IsScanned) (h : exprStmt f = (s, r)) :
    s.IsScanned ∧ r.1.IsScanned := by
  cases h
  obtain ⟨value, behind⟩ := scanned_expr hf rfl
  exact ⟨value, behind.skip _⟩

mutual

theorem scanned_stmt {f : Feed} {s : Stmt} {r : f.After} (hf : f.IsScanned) (h : stmt f = (s, r)) :
    s.IsScanned ∧ r.1.IsScanned := by
  match f, r, h with
  | .token t rest, r, h =>
    rw [stmt.eq_def] at h
    dsimp only at h
    have hrest : rest.IsScanned := hf.2
    split at h
    · split at h
      iterate 2
        · cases h
          obtain ⟨declared, last⟩ := scanned_decl _ hrest (Prod.eta _).symm
          exact ⟨scanned_declStmt declared, last⟩
      · cases h
        exact scanned_ifChain (f := rest) hrest (Prod.eta _).symm
      · cases h
        have le := (expr rest).2.le
        obtain ⟨value, behind⟩ := scanned_expr hrest (Prod.eta _).symm
        obtain ⟨body, last⟩ := scanned_block behind (Prod.eta _).symm
        exact ⟨⟨value, body⟩, last⟩
      · cases h
        exact scanned_result (f := rest) hrest (Prod.eta _).symm
      all_goals exact scanned_exprStmt hf h
    · split at h
      · cases h
        exact scanned_body (f := rest) hrest (Prod.eta _).symm
      · split at h
        · cases h
          exact ⟨trivial, hrest⟩
        · exact scanned_exprStmt hf h
    all_goals exact scanned_exprStmt hf h
  | .done p, r, h =>
    rw [stmt.eq_def] at h
    exact scanned_exprStmt hf h
  | .stuck d, r, h =>
    rw [stmt.eq_def] at h
    exact scanned_exprStmt hf h
termination_by f.size * 8 + 3
decreasing_by all_goals (simp only [Feed.size_token]; omega)

theorem scanned_block {f : Feed} {b : Block} {r : f.After} (hf : f.IsScanned) (h : block f = (b, r)) :
    b.IsScanned ∧ r.1.IsScanned := by
  rw [block] at h
  split at h
  · next g eq =>
    split at h
    next b' r' hb =>
    cases h
    have lt := g.2
    exact scanned_body (f := g.1) (hf.after? eq) hb
  · cases h
    exact ⟨hf.complaint _, hf.complaint _⟩
termination_by f.size * 8 + 1
decreasing_by all_goals omega

theorem scanned_body {f : Feed} {b : Block} {r : f.After} (hf : f.IsScanned) (h : body f = (b, r)) :
    b.IsScanned ∧ r.1.IsScanned := by
  rw [body] at h
  split at h
  · next g eq =>
    cases h
    exact ⟨trivial, hf.after? eq⟩
  · split at h
    · cases h
      exact ⟨hf.complaint _, hf.complaint _⟩
    · split at h
      next s g hs =>
      split at h
      next b' r' hb =>
      cases h
      have lt := g.2
      have le := g.le
      obtain ⟨first, rest⟩ := scanned_stmt hf hs
      obtain ⟨others, last⟩ := scanned_body rest hb
      exact ⟨⟨first, others⟩, last⟩
termination_by f.size * 8 + 4
decreasing_by all_goals omega

theorem scanned_ifChain {f : Feed} {c : IfChain} {r : f.After} (hf : f.IsScanned) (h : ifChain f = (c, r)) :
    c.IsScanned ∧ r.1.IsScanned := by
  rw [ifChain] at h
  split at h
  next e g he =>
  split at h
  next b i hb =>
  split at h
  next o r' ho =>
  cases h
  have le := g.le
  have le' := i.le
  obtain ⟨value, behind⟩ := scanned_expr hf he
  obtain ⟨body, behind'⟩ := scanned_block behind hb
  obtain ⟨otherwise, last⟩ := scanned_otherwise behind' ho
  exact ⟨⟨value, body, otherwise⟩, last⟩
termination_by f.size * 8 + 2
decreasing_by all_goals omega

theorem scanned_otherwise {f : Feed} {o : Else} {r : f.Within} (hf : f.IsScanned)
    (h : otherwise f = (o, r)) : o.IsScanned ∧ r.1.IsScanned := by
  rw [otherwise] at h
  split at h
  · cases h
    exact ⟨trivial, hf⟩
  · next g eq =>
    have lt := g.2
    have hg := hf.after? eq
    split at h
    · next g' hg' =>
      cases h
      have lt' := g'.2
      exact scanned_ifChain (f := g'.1) (hg.after? hg') rfl
    · cases h
      exact scanned_block (f := g.1) hg rfl
termination_by f.size * 8
decreasing_by all_goals omega

end

end Parse

/-! ### Programs -/

/-- The same of a part of a program. -/
def Item.IsScanned : Item → Prop
  | .fn f => Gets f.type (IsName ·.name) ∧ f.body.IsScanned
  | .decl d => d.IsScanned

/-- The same of a program. -/
structure Program.IsScanned (p : Program) : Prop where
  items : ∀ i ∈ p.items, i.IsScanned
  finish : Gets p.finish fun _ => True

namespace Parse

variable {f : Feed}

theorem scanned_constness {isConst : Bool} {start : f.Within} (hf : f.IsScanned)
    (h : constness f = (isConst, start)) : start.1.IsScanned := by
  rw [constness] at h
  split at h
  · next eq =>
    cases h
    exact hf.after? eq
  · cases h
    exact hf

theorem scanned_param {x : Except Diagnostic Param} {r : f.After} (hf : f.IsScanned)
    (h : param f = (x, r)) : Gets x (fun _ => True) ∧ r.1.IsScanned := by
  rw [param] at h
  split at h
  next isConst start hc =>
  have hstart := scanned_constness hf hc
  split at h
  · next d r' hx =>
    cases h
    exact hstart.ident hx
  next name g hx =>
  have colon := (hstart.ident hx).2.skip .colon
  dsimp only at h
  split at h
  · next d r' ht =>
    cases h
    exact colon.ident ht
  · next type r' ht =>
    cases h
    exact ⟨trivial, (colon.ident ht).2⟩

theorem scanned_params {f : Feed} {ps : List Param} {r : f.After} (hf : f.IsScanned)
    (h : params f = (ps, r)) : r.1.IsScanned := by
  rw [params] at h
  split at h
  · next d r' hp =>
    cases h
    exact (scanned_param hf hp).1
  · next p g hp =>
    have rest := (scanned_param hf hp).2
    split at h
    · next g' eq =>
      split at h
      next ps' r' hps =>
      cases h
      have lt := g'.2
      have le := g.le
      exact scanned_params (f := g'.1) (rest.after? eq) hps
    · cases h
      exact rest.skip _
termination_by f.size
decreasing_by omega

theorem scanned_paramList {ps : List Param} {r : f.After} (hf : f.IsScanned) (h : paramList f = (ps, r)) :
    r.1.IsScanned := by
  rw [paramList] at h
  split at h
  · next g eq =>
    cases h
    exact hf.after? eq
  · exact scanned_params hf h

theorem scanned_fnItem {x : Except Diagnostic FnItem} {r : f.After} (hf : f.IsScanned)
    (h : fnItem f = (x, r)) : Gets x (Item.IsScanned ∘ .fn) ∧ r.1.IsScanned := by
  rw [fnItem] at h
  split at h
  · next d r' hx =>
    cases h
    exact hf.ident hx
  next name g hx =>
  have rest := (hf.ident hx).2
  split at h
  · cases h
    exact ⟨rest.complaint _, rest.complaint _⟩
  next g' eq =>
  cases h
  have arrow := (scanned_paramList (rest.after? eq) (Prod.eta _).symm).skip .arrow
  obtain ⟨type, behind⟩ := arrow.ident (Prod.eta _).symm
  obtain ⟨body, last⟩ := scanned_block behind (Prod.eta _).symm
  exact ⟨⟨type, body⟩, last⟩

theorem scanned_item {t : Token} {k : Keyword} {x : Except Diagnostic Item} {r : f.After} (hf : f.IsScanned)
    (h : item t k f = (x, r)) : Gets x Item.IsScanned ∧ r.1.IsScanned := by
  cases k with
  | fnKw =>
    cases h
    obtain ⟨scanned, last⟩ := scanned_fnItem hf (Prod.eta _).symm
    exact ⟨scanned.map, last⟩
  | letKw | constKw =>
    cases h
    obtain ⟨scanned, last⟩ := scanned_decl _ hf (Prod.eta _).symm
    exact ⟨scanned.map, last⟩
  | _ =>
    cases h
    exact ⟨.inr rfl, .inr rfl⟩

theorem scanned_items {f : Feed} {is : List Item} {finish : Except Diagnostic Position} (hf : f.IsScanned)
    (h : items f = (is, finish)) : Program.IsScanned ⟨is, finish⟩ := by
  match f, h with
  | .done p, h =>
    rw [items.eq_def] at h
    cases h
    exact ⟨List.forall_mem_nil _, trivial⟩
  | .stuck d, h =>
    rw [items.eq_def] at h
    cases h
    exact ⟨List.forall_mem_nil _, hf⟩
  | .token t rest, h =>
    rw [items.eq_def] at h
    dsimp only at h
    split at h
    · next k hk =>
      split at h
      · next i r hi =>
        cases h
        have le := r.le
        obtain ⟨first, behind⟩ := scanned_item hf.2 hi
        have others := scanned_items behind rfl
        exact ⟨List.forall_mem_cons.2 ⟨first, others.items⟩, others.finish⟩
      · next d r hi =>
        cases h
        exact ⟨List.forall_mem_nil _, (scanned_item hf.2 hi).1⟩
    · cases h
      exact ⟨List.forall_mem_nil _, .inr rfl⟩
termination_by f.size
decreasing_by simp only [Feed.size_token]; omega

end Parse

/-- The tree of any source looks up names and has holes only for faults of the syntax. -/
theorem Program.isScanned_ofSource (source : String) : (ofSource source).IsScanned :=
  Parse.scanned_items (Feed.isScanned_ofCursor _) rfl

end CZero
