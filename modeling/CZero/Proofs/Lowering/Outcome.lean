import CZero.Proofs.Lowering.Patching

/-!
# How compilation ends

Compiling a source ends in one of three ways: with a mistake of the source, which analysis reports; with
the complaint that there is no `main`; or with an image. What is analysed can always be assembled: all
functions have their names and all instructions have their operands.
-/

namespace CZero

/-! ### The function named `main` -/

/-- A function of a program is named `main`. -/
def Program.DeclaresMain (p : Program) : Prop :=
  ∃ f, .fn f ∈ p.items ∧ f.name.name = mainName

theorem Draft.main_add (d : Draft) (i : Item) :
    (d.add i).main = none ↔ d.main = none ∧ ∀ f, i = .fn f → f.name.name ≠ mainName := by
  cases i with
  | decl g => exact ⟨fun none => ⟨none, nofun⟩, And.left⟩
  | fn f =>
    change (if f.name.name = mainName then some d.fns.length else d.main) = none ↔ _
    by_cases name : f.name.name = mainName
    · rw [if_pos name]
      exact ⟨nofun, fun ⟨_, other⟩ => absurd name (other f rfl)⟩
    · rw [if_neg name]
      exact ⟨fun none => ⟨none, fun g eq => Item.fn.inj eq ▸ name⟩, And.left⟩

theorem Draft.main_foldl_eq_none (items : List Item) (d : Draft) :
    (items.foldl Draft.add d).main = none ↔
      d.main = none ∧ ∀ i ∈ items, ∀ f, i = .fn f → f.name.name ≠ mainName := by
  induction items generalizing d with
  | nil => simp
  | cons i rest ih => rw [List.foldl_cons, ih, main_add, List.forall_mem_cons, and_assoc]

theorem Program.main_eq_none (p : Program) : p.draft.main = none ↔ ¬p.DeclaresMain := by
  change (p.items.foldl Draft.add .initial).main = none ↔ _
  rw [Draft.main_foldl_eq_none]
  constructor
  · rintro ⟨-, others⟩ ⟨f, mem, name⟩
    exact others _ mem f rfl name
  · intro no
    refine ⟨rfl, ?_⟩
    rintro _ mem f rfl name
    exact no ⟨f, mem, name⟩

/-! ### Every instruction is complete -/

/-- No code goes to the library. -/
theorem Program.body_library {p : Program} {k : Nat} {f : FnInfo} (lt : k < entryIndex)
    (h : p.draft.fns[k]? = some f) : f.body = [] := by
  have known : k < Draft.initial.fns.length := Nat.lt_trans lt Draft.isNumbered_initial.entry
  have empty : ∀ g ∈ Draft.initial.fns, g.body = [] := by decide
  have stays := Draft.fns_foldl p.items (Nat.ne_of_lt lt) (List.getElem?_eq_getElem known)
  change ((p.items.foldl Draft.add .initial).fns.modify entryIndex _)[k]? = some f at h
  rw [List.getElem?_modify_ne _ _ (Nat.ne_of_gt lt), stays] at h
  cases h
  exact empty _ (List.getElem_mem known)

theorem Program.Legal.forall_isWellFormed {p : Program} (legal : p.Legal) :
    ∀ f ∈ p.draft.fns, ∀ i ∈ f.body, i.isWellFormed := by
  intro f mem
  obtain ⟨k, at_k⟩ := List.mem_iff_getElem?.1 mem
  by_cases lt : k < entryIndex
  · rw [body_library lt at_k]
    exact nofun
  · refine legal.isWellFormed f (List.mem_iff_getElem?.2 ⟨k - entryIndex, ?_⟩)
    rwa [List.getElem?_drop, Nat.add_sub_cancel' (Nat.le_of_not_lt lt)]

/-! ### Compilation -/

theorem compile_of_analyse_error {source : String} {d : Diagnostic} (h : analyse source = .error d) :
    compile source = .error d := by
  rw [compile, h]
  rfl

/-- What is analysed can be assembled, and only a `main` is asked for. -/
theorem compile_of_analyse {source : String} {a : Analysis} (h : analyse source = .ok a) :
    ∃ m, a.assemble = .ok m ∧
      ((Program.ofSource source).DeclaresMain → compile source = .ok m) ∧
      (¬(Program.ofSource source).DeclaresMain → compile source = .error ⟨.mainMissing, a.finish⟩) := by
  obtain ⟨-, main, image⟩ := Program.assemble_eq h
  have ends : compile source = a.requireMain >>= fun _ => a.assemble := by
    rw [compile, h]
    rfl
  refine ⟨_, image, fun declared => ?_, fun missing => ?_⟩
  · cases found : a.main with
    | none =>
      rw [found] at main
      exact absurd declared ((Program.main_eq_none _).1 main.symm)
    | some k =>
      rw [ends, Analysis.requireMain, found, image]
      rfl
  · rw [(Program.main_eq_none _).2 missing] at main
    rw [ends, Analysis.requireMain, main]
    rfl

/-- Compilation fails with a fault that analysis reports, or for want of a `main`. -/
theorem compile_error {source : String} {d : Diagnostic} (h : compile source = .error d) :
    analyse source = .error d ∨
      (∃ a, analyse source = .ok a) ∧ ¬(Program.ofSource source).DeclaresMain ∧ d.cause = .mainMissing := by
  cases analysed : analyse source with
  | error d' =>
    rw [compile_of_analyse_error analysed] at h
    cases h
    exact .inl rfl
  | ok a =>
    obtain ⟨m, -, compiles, fails⟩ := compile_of_analyse analysed
    by_cases main : (Program.ofSource source).DeclaresMain
    · rw [compiles main] at h
      cases h
    · rw [fails main] at h
      cases h
      exact .inr ⟨⟨a, rfl⟩, main, rfl⟩

/-- No source makes the compiler fail in itself. Neither analysis nor compilation reports a missing operand
or a missing function. All instructions of an analysed source are complete and it can be assembled; what is
missing then can only be a `main`.

An operand is filled in once: lowering, which is `analyseBy patch`, does the same with any other way to fill
in operands that is right about those that are awaited in the current function, and a site that was patched
awaits none. -/
theorem compile_resolves (source : String) :
    (∀ d, analyse source = .error d ∨ compile source = .error d → ¬d.cause.IsInternal) ∧
    (∀ a, analyse source = .ok a → (∀ f ∈ a.table.allFunctions, ∀ i ∈ f.body, i.isWellFormed) ∧
      ∃ m, a.assemble = .ok m ∧ ((Program.ofSource source).DeclaresMain → compile source = .ok m)) ∧
    ((∃ d, compile source = .error d ∧ d.cause = .mainMissing) ↔
      (∃ a, analyse source = .ok a) ∧ ¬(Program.ofSource source).DeclaresMain) ∧
    (∀ p : Program, p.analyseBy Lower.patch = p.analyse) ∧
    (∀ fill, Lower.FillsAwaiting fill → (Program.ofSource source).analyseBy fill = analyse source) ∧
    ∀ site operand c c', Lower.patch site operand c = .ok ((), c') → ¬c'.Awaits site := by
  have scanned := Program.isScanned_ofSource source
  refine ⟨fun d fault => ?_, fun a analysed => ?_, ⟨?_, ?_⟩, Program.analyseBy_patch,
    fun fill => scanned.analyseBy_eq, fun _ _ _ _ => Lower.not_awaits_of_patch⟩
  · obtain analysed | ⟨-, -, main⟩ := fault.elim .inl compile_error
    · exact (scanned.isMistake analysed).not_isInternal
    · rw [main]
      rintro (⟨_, ⟨⟩⟩ | ⟨_, ⟨⟩⟩)
  · obtain ⟨m, image, compiles, -⟩ := compile_of_analyse analysed
    refine ⟨?_, m, image, compiles⟩
    have spec := (Program.ofSource source).analyse_spec
    rw [show (Program.ofSource source).analyse = .ok a from analysed] at spec
    rw [spec.2.functions]
    exact spec.1.forall_isWellFormed
  · rintro ⟨d, fails, main⟩
    obtain analysed | ⟨analysed, missing, -⟩ := compile_error fails
    · -- analysis asks for no `main`
      have mistake := scanned.isMistake analysed
      rw [main] at mistake
      exact mistake.elim
    · exact ⟨analysed, missing⟩
  · rintro ⟨⟨a, analysed⟩, missing⟩
    obtain ⟨-, -, -, fails⟩ := compile_of_analyse analysed
    exact ⟨_, fails missing, rfl⟩

end CZero
