import CZero.Proofs.Grammar.Reading
import CZero.Proofs.Lowering.Outcome
import CZero.Proofs.Renaming.Lower

/-!
# Faults of the text

Tokens can be scanned all at once, before anything else, or one by one as the parser asks for them. Both
ways meet the same fault of the text, if there is one. Compilation asks for tokens one by one: it reports
the fault that scanning all at once finds, or it stops before that, at a token that stands before the
fault.

    let a: int = b; $      scanning: unexpected '$' at offset 16
                           analysis: 'b' is not declared, at offset 13

A source is like itself if all places and faults are related to themselves (`Likeness.feeds_self`). With
the places before the fault as places, this says where analysis can stop.
-/

namespace CZero

/-! ### Scanning all at once -/

namespace Feed

/-- The fault of the text that a feed ends with. -/
def fault? : Feed → Option Diagnostic
  | .token _ rest => rest.fault?
  | .done _ => none
  | .stuck d => some d

theorem mapM_items (f : Feed) : f.items.mapM id = match f.fault? with
    | some d => .error d
    | none => .ok f.tokens := by
  induction f with
  | done p => rfl
  | stuck d => rfl
  | token t rest ih =>
    rw [items, List.mapM_cons, ih, fault?]
    cases rest.fault? <;> rfl

/-- Scanning all tokens fails with the fault that the feed ends with. -/
theorem tokenize_eq_error_iff {source : String} {d : Diagnostic} :
    tokenize source = .error d ↔ (ofSource source).fault? = some d := by
  rw [tokenize, mapM_items]
  cases (ofSource source).fault? with
  | none => exact ⟨nofun, nofun⟩
  | some e => exact ⟨fun eq => congrArg some (Except.error.inj eq), fun eq => congrArg _ (Option.some.inj eq)⟩

end Feed

/-! ### Places before a fault -/

namespace Cursor

theorem offset_le_skip (comment : Bool) (cs : List Char) (p : Position) :
    p.offset ≤ (skip comment cs p).position.offset := by
  fun_induction skip comment cs p <;> simp_all [Position.advance, Position.nextLine] <;> omega

/-- A token starts at or behind the cursor, and the scan goes on behind its start. -/
theorem offset_of_scan {c after : Cursor} {t : Token} (h : c.scan = (.ok t, after))
    (ne : t.lexeme ≠ .endOfFile) :
    c.position.offset ≤ t.start.offset ∧ t.start.offset < after.position.offset := by
  have skipped := offset_le_skip false c.rest c.position
  unfold scan at h
  dsimp only at h
  split at h
  · cases h
    exact absurd rfl ne
  · next ch cs _ =>
    have pos := Scan.lexeme_length_pos ch cs
    split at h
    · cases h
      refine ⟨skipped, ?_⟩
      simp only [advance, Position.advance]
      omega
    · cases h

/-- A fault lies at or behind the cursor. -/
theorem offset_of_fault {c after : Cursor} {d : Diagnostic} (h : c.scan = (.error d, after)) :
    c.position.offset ≤ d.position.offset := by
  have skipped := offset_le_skip false c.rest c.position
  unfold scan at h
  dsimp only at h
  split at h
  · cases h
  · split at h
    · cases h
    · cases h
      exact Nat.le_trans skipped (Nat.le_add_right _ _)

end Cursor

namespace Feed

/-- The fault that stops the scan is one of the text, and lies behind the starts of all tokens. -/
theorem fault_ofCursor {c : Cursor} {e : Diagnostic} (h : (ofCursor c).fault? = some e) :
    e.cause.isLexical ∧ c.position.offset ≤ e.position.offset ∧
      ∀ t ∈ (ofCursor c).tokens, t.start.offset < e.position.offset := by
  rw [ofCursor] at h ⊢
  split at h
  · next d after scanned =>
    cases h
    exact ⟨Cursor.isLexical_of_scan scanned, Cursor.offset_of_fault scanned, nofun⟩
  · next t after scanned =>
    split at h
    · cases h
    · next ne =>
      have shorter := Cursor.scan_shorter scanned ne
      obtain ⟨start, next⟩ := Cursor.offset_of_scan scanned ne
      obtain ⟨lexical, le, later⟩ := fault_ofCursor (c := after) h
      rw [dif_neg ne]
      refine ⟨lexical, by omega, fun t' mem => ?_⟩
      rcases List.mem_cons.1 mem with rfl | mem
      · omega
      · exact later t' mem
termination_by c.rest.length

end Feed

/-! ### Sources that are like themselves -/

namespace Likeness

variable {κ : Likeness}

/-- A feed is like itself if its places and its fault are related to themselves. -/
theorem feeds_self (name : ∀ x, κ.name x = x) {f : Feed} (tokens : ∀ t ∈ f.tokens, κ.At t.start t.start)
    (ends : f.fault? = none → ∀ p, κ.Ends p p) (fault : ∀ d, f.fault? = some d → κ.Fault d d) :
    κ.Feeds f f := by
  have same : ∀ l : Lexeme, l.rename κ.name = l := by
    intro l
    cases l with
    | ident x => exact congrArg Lexeme.ident (name x)
    | _ => rfl
  induction f with
  | done p => exact .done (ends rfl p)
  | stuck d => exact .stuck (.text (fault d rfl))
  | token t rest ih =>
    refine .token (same _).symm (tokens t List.mem_cons_self) ?_
    exact ih (fun t' mem => tokens t' (List.mem_cons_of_mem t mem)) ends fault

/-- The likeness of a feed with itself: places before its fault correspond to themselves. -/
def self (f : Feed) : Likeness where
  name := id
  injective := Function.injective_id
  reserved _ _ := rfl
  At p _ := ∀ e, f.fault? = some e → p.offset < e.position.offset
  Ends _ _ := f.fault? = none
  at_of_ends none e some := by rw [none] at some; cases some
  Fault d _ := f.fault? = some d

theorem feeds_ofSource (source : String) :
    (self (.ofSource source)).Feeds (.ofSource source) (.ofSource source) :=
  feeds_self (fun _ => rfl) (fun t mem _ fault => (Feed.fault_ofCursor fault).2.2 t mem) (fun none _ => none)
    fun _ fault => fault

end Likeness

/-- Analysis accepts only a text without a fault. It reports the fault of the text, or one that is none of
the text and stands before that. -/
theorem analyse_fault (source : String) : match analyse source with
    | .ok _ => (Feed.ofSource source).fault? = none
    | .error d => (Feed.ofSource source).fault? = some d ∨ d.cause.isLexical = false ∧
        ∀ e, (Feed.ofSource source).fault? = some e → d.position.offset < e.position.offset := by
  have results := (Likeness.feeds_ofSource source).program.analyse
  have scanned := Program.isScanned_ofSource source
  change (Likeness.self _).Results _ (analyse source) (analyse source) at results
  cases eq : analyse source with
  | ok a =>
    rw [eq] at results
    cases results with
    | ok alike => exact alike.finish
  | error d =>
    have mistake := scanned.isMistake eq
    rw [eq] at results
    cases results with
    | error alike =>
      cases alike with
      | text fault => exact .inl fault
      | place causes before => exact .inr ⟨causes.isLexical, before⟩
      | internal internal => exact absurd internal mistake.not_isInternal

/-- Compilation and scanning agree on faults of the text. A fault of the text that compilation reports is
the one that scanning reports. If scanning fails, then compilation fails in analysis, with the same fault,
or with one that is none of the text and stands before it. -/
theorem compile_agrees_with_tokenize (source : String) :
    (∀ d, compile source = .error d → d.cause.isLexical → tokenize source = .error d) ∧
    ∀ e, tokenize source = .error e → e.cause.isLexical ∧
      ∃ d, analyse source = .error d ∧ compile source = .error d ∧
        (d = e ∨ d.cause.isLexical = false ∧ d.position.offset < e.position.offset) := by
  have fault := analyse_fault source
  constructor
  · intro d fails lexical
    obtain analysed | ⟨-, -, main⟩ := compile_error fails
    · rw [analysed] at fault
      obtain same | ⟨other, -⟩ := fault
      · exact Feed.tokenize_eq_error_iff.2 same
      · rw [lexical] at other
        cases other
    · rw [main] at lexical
      cases lexical
  · intro e fails
    have found := Feed.tokenize_eq_error_iff.1 fails
    cases eq : analyse source with
    | ok a =>
      rw [eq, found] at fault
      cases fault
    | error d =>
      rw [eq] at fault
      refine ⟨(Feed.fault_ofCursor found).1, d, rfl, compile_of_analyse_error eq, ?_⟩
      obtain same | ⟨other, before⟩ := fault
      · exact .inl (Option.some.inj (same.symm.trans found))
      · exact .inr ⟨other, before e found⟩

end CZero
