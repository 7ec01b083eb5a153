import CZero.Proofs.Renaming.Basic
import CZero.Tree.Parse.Program

/-!
# Sources that are alike have trees that are alike

Parsing looks at the kinds of tokens and never at names. So it takes the same way through two feeds that
are alike, and where one breaks off, the other breaks off too. One lemma for each function of the parser;
they follow its recursion.
-/

namespace CZero.Parse

variable {κ : Likeness} {f f' : Feed}

/-! ### Expressions -/

theorem alike_followed {e e' : Expr} (h : κ.Exprs e e') (hf : κ.Feeds f f') :
    κ.Exprs (followed e f) (followed e' f') := by
  cases hf with
  | token | done => exact h
  | stuck d => exact .cutOff h d

theorem alike_loaded {x x' : Ident} (h : κ.Idents x x') (hf : κ.Feeds f f') :
    κ.Exprs (loaded x f) (loaded x' f') := by
  cases hf with
  | token | done => exact .load h
  | stuck d => exact .hole d

theorem alike_noExpr (h : κ.Feeds f f') : κ.Reads κ.Exprs (noExpr f) (noExpr f') :=
  ⟨.hole (h.complaint _), h.stop _⟩

mutual

theorem alike_expr {f f' : Feed} (h : κ.Feeds f f') : κ.Reads κ.Exprs (expr f) (expr f') := by
  have first := alike_sum h
  rw [expr, expr]
  revert first
  rcases sum f with ⟨_, r⟩
  rcases sum f' with ⟨_, r'⟩
  rintro ⟨lhs, more⟩
  rcases more.operator? CompareOp.ofPunct? with ⟨eq, eq'⟩ | ⟨op, rest, rest', eq, eq', tail⟩
  · simp only [eq, eq']
    exact ⟨lhs, more⟩
  · simp only [eq, eq']
    obtain ⟨rhs, last⟩ := alike_sum tail
    exact ⟨.compare op lhs rhs, last⟩
termination_by f.size * 8 + 6
decreasing_by
  · omega
  · have : rest.1.size < r.1.size := rest.2; have := r.le; omega

theorem alike_sum {f f' : Feed} (h : κ.Feeds f f') : κ.Reads κ.Exprs (sum f) (sum f') := by
  have first := alike_term h
  rw [sum, sum]
  revert first
  rcases term f with ⟨_, r⟩
  rcases term f' with ⟨_, r'⟩
  rintro ⟨lhs, more⟩
  obtain ⟨whole, last⟩ := alike_sumTail more lhs
  exact ⟨whole, last⟩
termination_by f.size * 8 + 5
decreasing_by
  · omega
  · have := r.le; omega

theorem alike_sumTail {f f' : Feed} (h : κ.Feeds f f') {e e' : Expr} (he : κ.Exprs e e') :
    κ.Reads κ.Exprs (sumTail e f) (sumTail e' f') := by
  rw [sumTail, sumTail]
  rcases h.operator? ArithOp.ofSum? with ⟨eq, eq'⟩ | ⟨op, rest, rest', eq, eq', tail⟩
  · simp only [eq, eq']
    exact ⟨he, h⟩
  · have next := alike_term tail
    simp only [eq, eq']
    revert next
    rcases term rest.1 with ⟨_, r⟩
    rcases term rest'.1 with ⟨_, r'⟩
    rintro ⟨rhs, more⟩
    obtain ⟨whole, last⟩ := alike_sumTail more (.arith op he rhs)
    exact ⟨whole, last⟩
termination_by f.size * 8
decreasing_by
  · have := rest.2; omega
  · have := rest.2; have := r.le; omega

theorem alike_term {f f' : Feed} (h : κ.Feeds f f') : κ.Reads κ.Exprs (term f) (term f') := by
  have first := alike_cast h
  rw [term, term]
  revert first
  rcases cast f with ⟨_, r⟩
  rcases cast f' with ⟨_, r'⟩
  rintro ⟨lhs, more⟩
  obtain ⟨whole, last⟩ := alike_termTail more lhs
  exact ⟨whole, last⟩
termination_by f.size * 8 + 4
decreasing_by
  · omega
  · have := r.le; omega

theorem alike_termTail {f f' : Feed} (h : κ.Feeds f f') {e e' : Expr} (he : κ.Exprs e e') :
    κ.Reads κ.Exprs (termTail e f) (termTail e' f') := by
  rw [termTail, termTail]
  rcases h.operator? ArithOp.ofTerm? with ⟨eq, eq'⟩ | ⟨op, rest, rest', eq, eq', tail⟩
  · simp only [eq, eq']
    exact ⟨he, h⟩
  · have next := alike_cast tail
    simp only [eq, eq']
    revert next
    rcases cast rest.1 with ⟨_, r⟩
    rcases cast rest'.1 with ⟨_, r'⟩
    rintro ⟨rhs, more⟩
    obtain ⟨whole, last⟩ := alike_termTail more (.arith op he rhs)
    exact ⟨whole, last⟩
termination_by f.size * 8
decreasing_by
  · have := rest.2; omega
  · have := rest.2; have := r.le; omega

theorem alike_cast {f f' : Feed} (h : κ.Feeds f f') : κ.Reads κ.Exprs (cast f) (cast f') := by
  have first := alike_unary h
  rw [cast, cast]
  revert first
  rcases unary f with ⟨_, r⟩
  rcases unary f' with ⟨_, r'⟩
  rintro ⟨operand, more⟩
  rcases more.keyword? .asKw with ⟨eq, eq'⟩ | ⟨rest, rest', eq, eq', tail⟩
  · simp only [eq, eq']
    exact ⟨alike_followed operand more, more⟩
  · have type := tail.ident
    simp only [eq, eq']
    revert type
    rcases rest.1.ident with ⟨x, q⟩
    rcases rest'.1.ident with ⟨x', q'⟩
    rintro ⟨type, last⟩
    cases type with
    | ok type => exact ⟨alike_followed (.cast operand type) last, last⟩
    | error d => exact ⟨.cutOff operand d, .stuck d⟩
termination_by f.size * 8 + 3
decreasing_by omega

theorem alike_unary {f f' : Feed} (h : κ.Feeds f f') : κ.Reads κ.Exprs (unary f) (unary f') := by
  rw [unary, unary]
  rcases h.punct? .minus with ⟨eq, eq'⟩ | ⟨rest, rest', eq, eq', tail⟩
  · simp only [eq, eq']
    exact alike_primary h
  · simp only [eq, eq']
    obtain ⟨operand, last⟩ := alike_unary tail
    exact ⟨operand.negate, last⟩
termination_by f.size * 8 + 2
decreasing_by
  · omega
  · have := rest.2; omega

theorem alike_primary {f f' : Feed} (h : κ.Feeds f f') : κ.Reads κ.Exprs (primary f) (primary f') := by
  have no := alike_noExpr h
  cases h with
  | done | stuck =>
    rw [primary, primary]
    exact no
  | @token t t' rest rest' lexeme start more =>
    obtain ⟨l, p, q⟩ := t
    obtain ⟨l', p', q'⟩ := t'
    obtain rfl : l' = l.rename κ.name := lexeme
    rw [primary, primary]
    cases l with
    | uint value => exact ⟨.uint value, more⟩
    | double value => exact ⟨.double value, more⟩
    | string text => exact ⟨.string text, more⟩
    | char c => exact ⟨.char c, more⟩
    | keyword k => exact no
    | endOfFile => exact no
    | punct p =>
      by_cases paren : p = .lparen
      · simp only [Lexeme.rename, paren, if_true]
        have inner := alike_expr more
        revert inner
        rcases expr rest with ⟨_, r⟩
        rcases expr rest' with ⟨_, r'⟩
        rintro ⟨inner, last⟩
        rcases last.punct? .rparen with ⟨eq, eq'⟩ | ⟨_, _, eq, eq', tail⟩
        · simp only [eq, eq']
          exact ⟨.cutOff inner (last.complaint _), last.stop _⟩
        · simp only [eq, eq']
          exact ⟨.paren inner, tail⟩
      · simp only [Lexeme.rename, paren, if_false]
        exact no
    | ident x =>
      have name : κ.Idents ⟨x, p⟩ ⟨κ.name x, p'⟩ := ⟨rfl, start⟩
      simp only [Lexeme.rename]
      rcases more.punct? .lparen with ⟨eq, eq'⟩ | ⟨r, r', eq, eq', tail⟩
      · simp only [eq, eq']
        rcases more.punct? .assign with ⟨eq, eq'⟩ | ⟨r, r', eq, eq', tail⟩
        · simp only [eq, eq']
          exact ⟨alike_loaded name more, more⟩
        · simp only [eq, eq']
          obtain ⟨value, last⟩ := alike_expr tail
          exact ⟨.assign name value, last⟩
      · simp only [eq, eq']
        rcases tail.punct? .rparen with ⟨eq, eq'⟩ | ⟨_, _, eq, eq', last⟩
        · simp only [eq, eq']
          obtain ⟨arguments, last⟩ := alike_args tail
          exact ⟨.call name arguments, last⟩
        · simp only [eq, eq']
          exact ⟨.call name .close, last⟩
termination_by f.size * 8 + 1
decreasing_by
  all_goals simp only [Feed.size_token]; omega

theorem alike_args {f f' : Feed} (h : κ.Feeds f f') : κ.Reads κ.Arglists (args f) (args f') := by
  have first := alike_expr h
  rw [args, args]
  revert first
  rcases expr f with ⟨_, r⟩
  rcases expr f' with ⟨_, r'⟩
  rintro ⟨value, more⟩
  rcases more.punct? .comma with ⟨eq, eq'⟩ | ⟨rest, rest', eq, eq', tail⟩
  · simp only [eq, eq']
    rcases more.punct? .rparen with ⟨eq, eq'⟩ | ⟨_, _, eq, eq', last⟩
    · simp only [eq, eq']
      exact ⟨.arg value (.cutOff (more.complaint _)), more.stop _⟩
    · simp only [eq, eq']
      exact ⟨.arg value .close, last⟩
  · simp only [eq, eq']
    obtain ⟨others, last⟩ := alike_args tail
    exact ⟨.arg value others, last⟩
termination_by f.size * 8 + 7
decreasing_by
  · omega
  · have : rest.1.size < r.1.size := rest.2; have := r.le; omega

end

/-! ### Declarations and statements -/

theorem alike_initial (isConst : Bool) (h : κ.Feeds f f') :
    κ.Reads (Option.Rel κ.Exprs) (initial isConst f) (initial isConst f') := by
  rw [initial, initial]
  rcases h.punct? .assign with ⟨eq, eq'⟩ | ⟨rest, rest', eq, eq', tail⟩
  · simp only [eq, eq']
    cases isConst with
    | true => exact ⟨.some (.hole (h.complaint _)), h.stop _⟩
    | false => exact ⟨.none, h⟩
  · simp only [eq, eq']
    obtain ⟨value, last⟩ := alike_expr tail
    exact ⟨.some value, last⟩

theorem alike_decl (isConst : Bool) (h : κ.Feeds f f') :
    κ.Reads (κ.Results κ.Decls) (decl isConst f) (decl isConst f') := by
  have name := h.ident
  rw [decl, decl]
  revert name
  rcases f.ident with ⟨x, r⟩
  rcases f'.ident with ⟨x', r'⟩
  rintro ⟨name, more⟩
  cases name with
  | error d => exact ⟨.error d, more⟩
  | ok name =>
    have type := (more.skip .colon).ident
    dsimp only at more type ⊢
    revert type
    rcases (r.1.skip .colon).1.ident with ⟨y, q⟩
    rcases (r'.1.skip .colon).1.ident with ⟨y', q'⟩
    rintro ⟨type, more⟩
    cases type with
    | error d => exact ⟨.error d, more⟩
    | ok type =>
      have init := alike_initial isConst more
      dsimp only at more init ⊢
      revert init
      rcases initial isConst q.1 with ⟨_, q⟩
      rcases initial isConst q'.1 with ⟨_, q'⟩
      rintro ⟨init, more⟩
      rcases more.punct? .semicolon with ⟨eq, eq'⟩ | ⟨_, _, eq, eq', last⟩
      · simp only [eq, eq']
        exact ⟨.ok ⟨rfl, name, type, init, .some (more.complaint _)⟩, more.stop _⟩
      · simp only [eq, eq']
        exact ⟨.ok ⟨rfl, name, type, init, .none⟩, last⟩

theorem alike_declStmt {d d' : Except Diagnostic Decl} (h : κ.Results κ.Decls d d') :
    κ.Stmts (declStmt d) (declStmt d') := by
  cases h with
  | ok d => exact .decl d
  | error d => exact .expr (.hole d)

theorem alike_result (h : κ.Feeds f f') : κ.Reads (Option.Rel κ.Exprs) (result f) (result f') := by
  rw [result, result]
  rcases h.punct? .semicolon with ⟨eq, eq'⟩ | ⟨_, _, eq, eq', last⟩
  · simp only [eq, eq']
    obtain ⟨value, more⟩ := alike_expr h
    exact ⟨.some value, more.skip .semicolon⟩
  · simp only [eq, eq']
    exact ⟨.none, last⟩

theorem alike_exprStmt (h : κ.Feeds f f') : κ.Reads κ.Stmts (exprStmt f) (exprStmt f') := by
  obtain ⟨value, more⟩ := alike_expr h
  exact ⟨.expr value, more.skip .semicolon⟩

mutual

theorem alike_stmt {f f' : Feed} (h : κ.Feeds f f') : κ.Reads κ.Stmts (stmt f) (stmt f') := by
  have plain := alike_exprStmt h
  cases h with
  | done | stuck =>
    rw [stmt, stmt]
    exact plain
  | @token t t' rest rest' lexeme start more =>
    obtain ⟨l, p, q⟩ := t
    obtain ⟨l', p', q'⟩ := t'
    obtain rfl : l' = l.rename κ.name := lexeme
    rw [stmt, stmt]
    cases l with
    | keyword k =>
      cases k with
      | letKw =>
        obtain ⟨d, last⟩ := alike_decl false more
        exact ⟨alike_declStmt d, last⟩
      | constKw =>
        obtain ⟨d, last⟩ := alike_decl true more
        exact ⟨alike_declStmt d, last⟩
      | ifKw =>
        obtain ⟨c, last⟩ := alike_ifChain more
        exact ⟨.cond c, last⟩
      | whileKw =>
        have first := alike_expr more
        simp only [Lexeme.rename]
        revert first
        rcases expr rest with ⟨_, r⟩
        rcases expr rest' with ⟨_, r'⟩
        rintro ⟨c, more⟩
        obtain ⟨b, last⟩ := alike_block more
        exact ⟨.loop c b, last⟩
      | returnKw =>
        obtain ⟨value, last⟩ := alike_result more
        exact ⟨.ret start value, last⟩
      | _ => exact plain
    | punct p =>
      by_cases brace : p = .lbrace
      · simp only [Lexeme.rename, brace, if_true]
        obtain ⟨b, last⟩ := alike_body more
        exact ⟨.block b, last⟩
      · by_cases semicolon : p = .semicolon
        · simp only [Lexeme.rename, semicolon]
          exact ⟨.empty, more⟩
        · simp only [Lexeme.rename, brace, semicolon, if_false]
          exact plain
    | _ => exact plain
termination_by f.size * 8 + 3
decreasing_by
  · have := r.le; simp only [Feed.size_token]; omega
  · simp only [Feed.size_token]; omega
  · simp only [Feed.size_token]; omega

theorem alike_block {f f' : Feed} (h : κ.Feeds f f') : κ.Reads κ.Blocks (block f) (block f') := by
  rw [block, block]
  rcases h.punct? .lbrace with ⟨eq, eq'⟩ | ⟨rest, rest', eq, eq', tail⟩
  · simp only [eq, eq']
    exact ⟨.cutOff (h.complaint _), h.stop _⟩
  · simp only [eq, eq']
    obtain ⟨b, last⟩ := alike_body tail
    exact ⟨b, last⟩
termination_by f.size * 8 + 1
decreasing_by have := rest.2; omega

theorem alike_body {f f' : Feed} (h : κ.Feeds f f') : κ.Reads κ.Blocks (body f) (body f') := by
  rw [body, body]
  rcases h.punct? .rbrace with ⟨eq, eq'⟩ | ⟨_, _, eq, eq', last⟩
  · simp only [eq, eq', h.size_eq]
    by_cases empty : f.size = 0
    · simp only [empty, if_true]
      exact ⟨.cutOff (h.complaint _), h.stop _⟩
    · have first := alike_stmt h
      simp only [empty, if_false]
      revert first
      rcases stmt f with ⟨_, r⟩
      rcases stmt f' with ⟨_, r'⟩
      rintro ⟨s, more⟩
      obtain ⟨b, last⟩ := alike_body more
      exact ⟨.stmt s b, last⟩
  · simp only [eq, eq']
    exact ⟨.close, last⟩
termination_by f.size * 8 + 4
decreasing_by
  · omega
  · have := r.2; omega

theorem alike_ifChain {f f' : Feed} (h : κ.Feeds f f') : κ.Reads κ.Chains (ifChain f) (ifChain f') := by
  have first := alike_expr h
  rw [ifChain, ifChain]
  revert first
  rcases expr f with ⟨_, r⟩
  rcases expr f' with ⟨_, r'⟩
  rintro ⟨c, more⟩
  have second := alike_block more
  dsimp only at more second ⊢
  revert second
  rcases block r.1 with ⟨_, q⟩
  rcases block r'.1 with ⟨_, q'⟩
  rintro ⟨b, more⟩
  obtain ⟨o, last⟩ := alike_otherwise more
  exact ⟨.mk c b o, last⟩
termination_by f.size * 8 + 2
decreasing_by
  · have := r.le; omega
  · have := r.le; have := q.le; omega

theorem alike_otherwise {f f' : Feed} (h : κ.Feeds f f') : κ.Reads κ.Elses (otherwise f) (otherwise f') := by
  rw [otherwise, otherwise]
  rcases h.keyword? .elseKw with ⟨eq, eq'⟩ | ⟨rest, rest', eq, eq', tail⟩
  · simp only [eq, eq']
    exact ⟨.absent, h⟩
  · simp only [eq, eq']
    rcases tail.keyword? .ifKw with ⟨eq, eq'⟩ | ⟨r, r', eq, eq', tail⟩
    · simp only [eq, eq']
      obtain ⟨b, last⟩ := alike_block tail
      exact ⟨.block b, last⟩
    · simp only [eq, eq']
      obtain ⟨c, last⟩ := alike_ifChain tail
      exact ⟨.chain c, last⟩
termination_by f.size * 8
decreasing_by
  · have := rest.2; omega
  · have := rest.2; have := r.2; omega

end

/-! ### Programs -/

theorem alike_constness (h : κ.Feeds f f') : κ.Reads (fun b b' => b' = b) (constness f) (constness f') := by
  rw [constness, constness]
  rcases h.keyword? .constKw with ⟨eq, eq'⟩ | ⟨_, _, eq, eq', tail⟩
  · simp only [eq, eq']
    exact ⟨rfl, h⟩
  · simp only [eq, eq']
    exact ⟨rfl, tail⟩

theorem alike_param (h : κ.Feeds f f') : κ.Reads (κ.Results κ.Params) (param f) (param f') := by
  have isConst := alike_constness h
  rw [param, param]
  revert isConst
  rcases constness f with ⟨_, start⟩
  rcases constness f' with ⟨_, start'⟩
  rintro ⟨isConst, more⟩
  have name := more.ident
  dsimp only at isConst more name ⊢
  revert name
  rcases start.1.ident with ⟨x, r⟩
  rcases start'.1.ident with ⟨x', r'⟩
  rintro ⟨name, more⟩
  cases name with
  | error d => exact ⟨.error d, more⟩
  | ok name =>
    have type := (more.skip .colon).ident
    dsimp only at more type ⊢
    revert type
    rcases (r.1.skip .colon).1.ident with ⟨y, q⟩
    rcases (r'.1.skip .colon).1.ident with ⟨y', q'⟩
    rintro ⟨type, last⟩
    cases type with
    | error d => exact ⟨.error d, last⟩
    | ok type => exact ⟨.ok ⟨isConst, name, type⟩, last⟩

theorem alike_params {f f' : Feed} (h : κ.Feeds f f') :
    κ.Reads (List.Forall₂ κ.Params) (params f) (params f') := by
  have first := alike_param h
  rw [params, params]
  revert first
  rcases param f with ⟨x, r⟩
  rcases param f' with ⟨x', r'⟩
  rintro ⟨p, more⟩
  cases p with
  | error d => exact ⟨.nil, .stuck d⟩
  | ok p =>
    dsimp only at more ⊢
    rcases more.punct? .comma with ⟨eq, eq'⟩ | ⟨rest, rest', eq, eq', tail⟩
    · simp only [eq, eq']
      exact ⟨.cons p .nil, more.skip .rparen⟩
    · simp only [eq, eq']
      obtain ⟨ps, last⟩ := alike_params tail
      exact ⟨.cons p ps, last⟩
termination_by f.size
decreasing_by have := rest.2; have := r.le; omega

theorem alike_paramList (h : κ.Feeds f f') :
    κ.Reads (List.Forall₂ κ.Params) (paramList f) (paramList f') := by
  rw [paramList, paramList]
  rcases h.punct? .rparen with ⟨eq, eq'⟩ | ⟨_, _, eq, eq', tail⟩
  · simp only [eq, eq']
    exact alike_params h
  · simp only [eq, eq']
    exact ⟨.nil, tail⟩

theorem alike_fnItem (h : κ.Feeds f f') : κ.Reads (κ.Results κ.Fns) (fnItem f) (fnItem f') := by
  have name := h.ident
  rw [fnItem, fnItem]
  revert name
  rcases f.ident with ⟨x, r⟩
  rcases f'.ident with ⟨x', r'⟩
  rintro ⟨name, more⟩
  cases name with
  | error d => exact ⟨.error d, more⟩
  | ok name =>
    dsimp only at more ⊢
    rcases more.punct? .lparen with ⟨eq, eq'⟩ | ⟨rest, rest', eq, eq', tail⟩
    · simp only [eq, eq']
      exact ⟨.error (more.complaint _), more.stop _⟩
    · simp only [eq, eq']
      obtain ⟨ps, more⟩ := alike_paramList tail
      obtain ⟨type, more⟩ := (more.skip .arrow).ident
      obtain ⟨b, last⟩ := alike_block more
      exact ⟨.ok ⟨name, ps, type, b⟩, last⟩

theorem alike_item {t t' : Token} (k : Keyword) (h : κ.Feeds (.token t f) (.token t' f'))
    (more : κ.Feeds f f') : κ.Reads (κ.Results κ.Items) (item t k f) (item t' k f') := by
  have mapped : ∀ {d d'}, κ.Results κ.Decls d d' → κ.Results κ.Items (d.map .decl) (d'.map .decl) := by
    rintro _ _ (d | d)
    · exact .ok (.decl d)
    · exact .error d
  cases k with
  | fnKw =>
    obtain ⟨g, last⟩ := alike_fnItem more
    refine ⟨?_, last⟩
    rw [item, item]
    revert g
    rcases fnItem f with ⟨g, r⟩
    rcases fnItem f' with ⟨g', r'⟩
    rintro (g | d)
    · exact .ok (.fn g)
    · exact .error d
  | letKw =>
    obtain ⟨d, last⟩ := alike_decl false more
    exact ⟨mapped d, last⟩
  | constKw =>
    obtain ⟨d, last⟩ := alike_decl true more
    exact ⟨mapped d, last⟩
  | _ => exact ⟨.error (h.complaint _), h.stop _⟩

theorem alike_items {f f' : Feed} (h : κ.Feeds f f') :
    List.Forall₂ κ.Items (items f).1 (items f').1 ∧ κ.Results κ.Ends (items f).2 (items f').2 := by
  have no := Likeness.Results.error (R := κ.Ends) (h.complaint itemStarts)
  cases h with
  | done ends =>
    rw [items, items]
    exact ⟨.nil, .ok ends⟩
  | stuck d =>
    rw [items, items]
    exact ⟨.nil, .error d⟩
  | @token t t' rest rest' lexeme start more =>
    obtain ⟨l, p, q⟩ := t
    obtain ⟨l', p', q'⟩ := t'
    obtain rfl : l' = l.rename κ.name := lexeme
    rw [items, items]
    cases l with
    | keyword k =>
      have whole : κ.Feeds (.token ⟨.keyword k, p, q⟩ rest) (.token ⟨.keyword k, p', q'⟩ rest') :=
        .token rfl start more
      have first := alike_item k whole more
      simp only [Lexeme.rename]
      revert first
      rcases item ⟨.keyword k, p, q⟩ k rest with ⟨i, r⟩
      rcases item ⟨.keyword k, p', q'⟩ k rest' with ⟨i', r'⟩
      rintro ⟨i, more⟩
      cases i with
      | error d => exact ⟨.nil, .error d⟩
      | ok i =>
        obtain ⟨others, finish⟩ := alike_items more
        exact ⟨.cons i others, finish⟩
    | _ => exact ⟨.nil, no⟩
termination_by f.size
decreasing_by have := r.le; simp only [Feed.size_token]; omega

end CZero.Parse

namespace CZero

/-- Feeds that are alike have trees that are alike. -/
theorem Likeness.Feeds.program {κ : Likeness} {f f' : Feed} (h : κ.Feeds f f') :
    κ.Programs (.ofFeed f) (.ofFeed f') :=
  have ⟨items, finish⟩ := Parse.alike_items h
  ⟨items, finish⟩

end CZero
