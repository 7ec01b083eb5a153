import CZero.Proofs.Lowering.Outcome
import CZero.Proofs.Renaming.Lower

/-!
# Layout and names do not matter

A `Renaming` exchanges identifiers, and leaves those alone that have a meaning of their own. Main statement
(`compile_renamed`): if a source has the tokens of another one, up to a renaming, then both compile or none
does. The images differ only in the names of functions. The diagnostics have the same cause, up to the
renaming, and are about the same token.

    // sum                                         fn total(x:int,y:int)->int
    fn sum(a: int, b: int) -> int {                {return x+y;}
      return a + b;
    }
-/

namespace CZero

/-! ### Renamings -/

/-- Whether a text is an identifier: a word that is not reserved. -/
def isIdentifier (x : String) : Bool :=
  x.toList.head?.any Scan.isWordStart && x.toList.all Scan.isWordPart && (Keyword.ofSpelling? x).isNone

/-- An exchange of identifiers. -/
structure Renaming where
  toFun : String → String
  maps : ∀ x, isIdentifier x → isIdentifier (toFun x)
  injOn : ∀ x y, isIdentifier x → isIdentifier y → toFun x = toFun y → x = y
  reserved : ∀ x ∈ reservedNames, toFun x = x

namespace Renaming

variable (r : Renaming)

/-- The new name. What is no identifier stays as it is. -/
def name (x : String) : String :=
  if isIdentifier x then r.toFun x else x

variable {r}

theorem name_of_isIdentifier {x : String} (h : isIdentifier x) : r.name x = r.toFun x :=
  if_pos h

theorem isIdentifier_name (x : String) : isIdentifier (r.name x) = isIdentifier x := by
  unfold name
  split
  · next h => rw [h, r.maps x h]
  · rfl

theorem injective_name : Function.Injective r.name := by
  intro x y eq
  have same := congrArg isIdentifier eq
  rw [isIdentifier_name, isIdentifier_name] at same
  unfold name at eq
  by_cases hx : isIdentifier x
  · have hy : isIdentifier y := same ▸ hx
    rw [if_pos hx, if_pos hy] at eq
    exact r.injOn x y hx hy eq
  · have hy : ¬ isIdentifier y := same ▸ hx
    rwa [if_neg hx, if_neg hy] at eq

theorem name_reserved {x : String} (mem : x ∈ reservedNames) : r.name x = x := by
  unfold name
  split
  · exact r.reserved x mem
  · rfl

end Renaming

/-! ### Tokens -/

namespace Feed

/-- The kinds of the tokens, the end of the source last, or the cause that stops the scan. -/
def kinds (f : Feed) : List (Except Cause Lexeme) :=
  f.items.map fun
    | .ok t => .ok t.lexeme
    | .error d => .error d.cause

/-- Where the tokens start, and the place of the fault that stops the scan. -/
def places (f : Feed) : List Position :=
  f.items.map fun
    | .ok t => t.start
    | .error d => d.position

/-- The places belong to tokens with the same number. -/
def SamePlace (f f' : Feed) (p p' : Position) : Prop :=
  ∃ i : Nat, f.places[i]? = some p ∧ f'.places[i]? = some p'

/-- The feed is one that a text has: the end of the source comes last, identifiers are identifiers, and only
characters stop it. -/
def IsText : Feed → Prop
  | .token t rest => t.lexeme ≠ .endOfFile ∧ (∀ x, t.lexeme = .ident x → isIdentifier x) ∧ rest.IsText
  | .done _ => True
  | .stuck d => d.cause.isLexical

end Feed

theorem Scan.isIdentifier_of_lexeme {c : Char} {cs : List Char} {x : String}
    (h : (lexeme c cs).outcome = .ok (.ident x)) : isIdentifier x := by
  unfold lexeme at h
  split at h
  · cases h
  split at h
  · unfold stringTail at h
    cases eq : stringBody 1 cs with
    | mk text n =>
      rw [eq] at h
      cases text <;> cases h
  split at h
  · cases word?_of_char h
  split at h
  · cases word?_of_number h
  split at h
  · next start =>
    have part : isWordPart c := by
      simp only [isWordStart, isWordPart, Char.isAlphanum, Bool.or_eq_true] at start ⊢
      exact start.imp_left Or.inl
    unfold Scan.word at h
    dsimp only at h
    split at h
    · cases h
    · next none =>
      cases h
      rw [isIdentifier, none, String.toList_ofList, List.takeWhile_cons, if_pos part]
      simp [start, part]
  · cases h

namespace Cursor

theorem isIdentifier_of_scan {c after : Cursor} {t : Token} {x : String} (h : c.scan = (.ok t, after))
    (ident : t.lexeme = .ident x) : isIdentifier x := by
  unfold scan at h
  dsimp only at h
  split at h
  · cases h
    cases ident
  · split at h
    · next found =>
      cases h
      dsimp only at ident
      subst ident
      exact Scan.isIdentifier_of_lexeme found
    · cases h

end Cursor

theorem Feed.isText_ofCursor (c : Cursor) : (ofCursor c).IsText := by
  rw [ofCursor]
  split
  · next h => exact Cursor.isLexical_of_scan h
  · next t after h =>
    split
    · exact trivial
    · next ne =>
      have shorter := Cursor.scan_shorter h ne
      exact ⟨ne, fun _ => Cursor.isIdentifier_of_scan h, isText_ofCursor after⟩
termination_by c.rest.length

/-! ### The likeness of a renaming -/

namespace Renaming

/-- How two feeds are alike that have the same tokens up to a renaming. -/
def likeness (r : Renaming) (f f' : Feed) : Likeness where
  name := r.name
  injective := injective_name
  reserved _ := name_reserved
  At := f.SamePlace f'
  Ends := f.SamePlace f'
  at_of_ends := id
  Fault d d' := d'.cause = d.cause ∧ d.cause.isLexical ∧ f.SamePlace f' d.position d'.position

variable {r : Renaming}

theorem rename_eq {l : Lexeme} (h : ∀ x, l = .ident x → isIdentifier x) :
    l.rename r.toFun = l.rename r.name := by
  cases l with
  | ident x => exact congrArg Lexeme.ident (name_of_isIdentifier (h x rfl)).symm
  | _ => rfl

/-- Feeds with the same kinds of tokens are alike. The places of the rest are places of the whole, so the
likeness stays that of the whole. -/
theorem feeds_of_kinds {whole whole' f f' : Feed} (text : f.IsText) (text' : f'.IsText)
    (kinds : f'.kinds = f.kinds.map (·.map (Lexeme.rename r.toFun)))
    (places : ∀ p p', f.SamePlace f' p p' → whole.SamePlace whole' p p') :
    (r.likeness whole whole').Feeds f f' := by
  induction f generalizing f' with
  | done p =>
    cases f' with
    | done p' => exact .done (places p p' ⟨0, rfl, rfl⟩)
    | token t' rest' =>
      have eq : t'.lexeme = .endOfFile := by injection kinds with head; injection head
      exact absurd eq text'.1
    | stuck d' => injection kinds with head; cases head
  | stuck d =>
    cases f' with
    | stuck d' =>
      have eq : d'.cause = d.cause := by injection kinds with head; injection head
      exact .stuck (.text ⟨eq, text, places _ _ ⟨0, rfl, rfl⟩⟩)
    | done p' => injection kinds with head; cases head
    | token t' rest' => injection kinds with head; cases head
  | token t rest ih =>
    have named : t.lexeme.rename r.toFun = t.lexeme.rename r.name := rename_eq text.2.1
    cases f' with
    | stuck d' => injection kinds with head; cases head
    | done p' =>
      have eq : Lexeme.endOfFile = t.lexeme.rename r.toFun := by injection kinds with head; injection head
      rw [named] at eq
      have ends := (Likeness.rename_eq_iff (κ := r.likeness whole whole') fun _ => Lexeme.noConfusion).1 eq.symm
      exact absurd ends text.1
    | token t' rest' =>
      have eq : t'.lexeme = t.lexeme.rename r.toFun := by injection kinds with head; injection head
      have later : rest'.kinds = rest.kinds.map (·.map (Lexeme.rename r.toFun)) := by injection kinds
      refine .token (eq.trans named) (places _ _ ⟨0, rfl, rfl⟩) (ih text.2.2 text'.2.2 later ?_)
      rintro p p' ⟨i, at_i, at_i'⟩
      exact places p p' ⟨i + 1, at_i, at_i'⟩

end Renaming

/-! ### Images -/

/-- The names of all functions as they stand in an image. -/
def nameTable (declared : List String) : List Global :=
  (LibraryFn.all.map (·.name) ++ entryName :: declared).map .ofText

/-- The images are the same but for the names of the functions that are declared. -/
structure Image.Renamed (name : String → String) (m m' : Image) : Prop where
  functions : m'.functions = m.functions
  globals : ∃ data declared, declared.length + 1 = m.functions.length ∧
    m.globals = data ++ nameTable declared ∧ m'.globals = data ++ nameTable (declared.map name) ∧
    ∀ (k : Nat) f, m.functions[k]? = some f → f.name = .ofNat (data.length + (libraryCount + k))

namespace Likeness

variable {κ : Likeness} {t t' : Table} {p p' : Program}

theorem Infos.function {f f' : FnInfo} (h : Infos f f') (slots : Nat) :
    f'.function slots = f.function slots := by
  have params : f'.params.length = f.params.length := by
    simpa using congrArg List.length h.types
  simp only [FnInfo.function, FnInfo.returnSlots, h.index, h.ret, params, h.locals, h.body]

theorem Tables.allFunctions (h : κ.Tables t t') : List.Forall₂ Infos t.allFunctions t'.allFunctions := by
  rw [Table.allFunctions, Table.allFunctions, h.functions]
  induction t.functions with
  | nil => exact .nil
  | cons id rest ih =>
    have found := h.get? id
    simp only [List.filterMap_cons]
    generalize t.get? id = s at found ⊢
    generalize t'.get? id = s' at found ⊢
    cases found with
    | none => exact ih
    | some alike =>
      have info := alike.function?
      rw [Option.bind_some, Option.bind_some]
      revert info
      generalize Symbol.function? _ = f
      generalize Symbol.function? _ = f'
      rintro (info | _)
      · exact .cons info ih
      · exact ih

theorem Programs.names (h : κ.Programs p p') :
    (Item.fns p'.items).map (·.name.name) = ((Item.fns p.items).map (·.name.name)).map κ.name := by
  have items := h.items
  generalize p.items = xs at items ⊢
  generalize p'.items = xs' at items ⊢
  induction items with
  | nil => rfl
  | @cons i i' rest rest' alike _ ih =>
    cases alike with
    | decl d => exact ih
    | fn f => exact congrArg₂ List.cons f.name.name ih

theorem map_eq_map {α β : Type} {R : α → α → Prop} {g : α → β} {xs ys : List α} (h : List.Forall₂ R xs ys)
    (same : ∀ x y, R x y → g y = g x) : ys.map g = xs.map g := by
  induction h with
  | nil => rfl
  | cons xy _ ih => exact congrArg₂ List.cons (same _ _ xy) ih

/-- Programs that are alike have the same image, up to names. -/
theorem Programs.image {a a' : Analysis} (h : κ.Programs p p') (alike : κ.Analyses a a')
    (ok : p.analyse = .ok a) (ok' : p'.analyse = .ok a') : p.image.Renamed κ.name p'.image := by
  have spec := p.analyse_spec
  have spec' := p'.analyse_spec
  rw [ok] at spec
  rw [ok'] at spec'
  obtain ⟨legal, matched⟩ := spec
  obtain ⟨-, matched'⟩ := spec'
  have data : p'.draft.data = p.draft.data := by
    rw [← matched'.globals, ← matched.globals]
    exact map_eq_map alike.table.globals fun _ _ s => s.globalOf
  have fns : List.Forall₂ Infos p.draft.fns p'.draft.fns := by
    rw [← matched.functions, ← matched'.functions]
    exact alike.table.allFunctions
  have names : ∀ q : Program, (rosterOf q.items).names.map .ofText
      = nameTable ((Item.fns q.items).map (·.name.name)) := by
    intro q
    rw [Roster.names, rosterOf, nameTable, List.map_cons, List.map_map]
    rfl
  refine ⟨?_, p.draft.data, (Item.fns p.items).map (·.name.name), ?_, ?_, ?_, ?_⟩
  · rw [Program.image, Program.image, data]
    exact map_eq_map (List.forall₂_drop _ fns) fun _ _ f => f.function _
  · rw [Program.image, List.length_map, List.length_map, List.length_drop, legal.enrolls.count,
      Nat.add_sub_cancel_left]
    simp [rosterOf]
  · rw [Program.image, names]
  · rw [Program.image, names, data, h.names]
  · intro k f at_k
    simp only [Program.image, List.getElem?_map, List.getElem?_drop, Option.map_eq_some_iff] at at_k
    obtain ⟨g, at_k, rfl⟩ := at_k
    rw [FnInfo.function, Program.index_eq at_k]
    rfl

end Likeness

/-! ### Compilation -/

namespace Renaming

/-- How the compilations of two sources end alike. -/
inductive Ends (r : Renaming) (f f' : Feed) : Except Diagnostic Image → Except Diagnostic Image → Prop
  | ok {m m'} : m.Renamed r.name m' → Ends r f f' (.ok m) (.ok m')
  | error {d d'} : d.cause.Renamed r.name d'.cause ∨ d.cause.isLexical ∧ d'.cause = d.cause →
    f.SamePlace f' d.position d'.position → Ends r f f' (.error d) (.error d')

end Renaming

/-- Compilation asks an analysis for a `main`, and then makes an image. -/
theorem compile_eq_of_analyse {source : String} {a : Analysis} (h : (Program.ofSource source).analyse = .ok a) :
    compile source = match a.main with
      | some _ => .ok (Program.ofSource source).image
      | none => .error ⟨.mainMissing, a.finish⟩ := by
  obtain ⟨-, -, image⟩ := Program.assemble_eq h
  have ends : compile source = a.requireMain >>= fun _ => a.assemble := by
    rw [compile, analyse, h]
    rfl
  rw [ends, Analysis.requireMain, image]
  cases a.main <;> rfl

/-- A source with other layout and other names compiles to the same, up to these names, or fails alike. -/
theorem compile_renamed (r : Renaming) (s s' : String)
    (kinds : (Feed.ofSource s').kinds = (Feed.ofSource s).kinds.map (·.map (Lexeme.rename r.toFun))) :
    r.Ends (.ofSource s) (.ofSource s') (compile s) (compile s') := by
  have feeds := Renaming.feeds_of_kinds (Feed.isText_ofCursor _) (Feed.isText_ofCursor _) kinds fun _ _ => id
  have programs : (r.likeness _ _).Programs (.ofSource s) (.ofSource s') := feeds.program
  have alike := programs.analyse
  generalize analysed : (Program.ofSource s).analyse = x at alike
  generalize analysed' : (Program.ofSource s').analyse = x' at alike
  cases alike with
  | error fault =>
    rw [compile_of_analyse_error analysed, compile_of_analyse_error analysed']
    cases fault with
    | text same => exact .error (.inr ⟨same.2.1, same.1⟩) same.2.2
    | place cause place => exact .error (.inl cause) place
    | internal fault =>
      exact absurd fault ((Program.isScanned_ofSource s).isMistake analysed).not_isInternal
  | @ok a a' alike =>
    rw [compile_eq_of_analyse analysed, compile_eq_of_analyse analysed', alike.main]
    cases a.main with
    | none => exact .error (.inl .mainMissing) alike.finish
    | some k => exact .ok (programs.image alike analysed analysed')

/-- The renaming that exchanges two identifiers. -/
def Renaming.exchange (x y : String) (hx : isIdentifier x ∧ x ∉ reservedNames)
    (hy : isIdentifier y ∧ y ∉ reservedNames) : Renaming where
  toFun := Equiv.swap x y
  maps z hz := by
    rw [Equiv.swap_apply_def]
    split
    · exact hy.1
    split
    · exact hx.1
    · exact hz
  injOn _ _ _ _ eq := (Equiv.swap x y).injective eq
  reserved z mem := Equiv.swap_apply_of_ne_of_ne (fun eq => hx.2 (eq ▸ mem)) fun eq => hy.2 (eq ▸ mem)

/-- A sum, laid out for reading. -/
def laidOut : String :=
  "// adds\nfn sum(a: int) -> int \x7b\n  return a + 1;\n\x7d\n\nfn main() -> void \x7b\n  putint(sum(2));\n\x7d\n"

/-- The same sum in one line, with other names. -/
def inOneLine : String :=
  "fn a(sum:int)->int\x7breturn sum+1;\x7dfn main()->void\x7bputint(a(2));\x7d"

set_option maxRecDepth 100000 in
/-- A function and its parameter exchange their names. -/
theorem compile_renamed_sum : ∃ r : Renaming, r.toFun "sum" = "a" ∧
    (Feed.ofSource inOneLine).kinds = (Feed.ofSource laidOut).kinds.map (·.map (Lexeme.rename r.toFun)) ∧
    (compile laidOut).toOption.map (·.globals.drop 9) = some [.ofText "sum", .ofText "main"] ∧
    (compile inOneLine).toOption.map (·.globals.drop 9) = some [.ofText "a", .ofText "main"] ∧
    r.Ends (.ofSource laidOut) (.ofSource inOneLine) (compile laidOut) (compile inOneLine) := by
  refine ⟨.exchange "sum" "a" (by decide +kernel) (by decide +kernel), by decide +kernel, ?_,
    by decide +kernel, by decide +kernel, compile_renamed _ _ _ ?_⟩
  all_goals decide +kernel

end CZero
