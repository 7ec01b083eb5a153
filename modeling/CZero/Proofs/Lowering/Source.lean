import CZero.Compiler
import CZero.Proofs.Grammar.Parser
import CZero.Proofs.Grammar.Unique
import CZero.Proofs.Lowering.Program

/-!
# What analysis makes of a source

A source is accepted exactly if the grammar gives a tree for it and that tree keeps the static rules,
and the code is then that of the tree.
-/

namespace CZero

/-! ### What keeps the static rules has no hole -/

mutual

theorem Expr.isWhole_of_type? {ρ : Env} {ty : Ty} : (e : Expr) → e.type? ρ = some ty → e.IsWhole
  | .hole _, h | .cutOff _ _, h => nomatch h
  | .uint _, _ | .double _, _ | .string _, _ | .char _, _ | .load _, _ => trivial
  | .paren e, h | .neg _ e, h => e.isWhole_of_type? h
  | .assign name e, h => by
    simp only [Expr.type?] at h
    split at h
    · next eq => exact e.isWhole_of_type? eq
    · cases h
  | .call name as, h => by
    simp only [Expr.type?] at h
    split at h
    · split at h
      · next typed => exact as.isWhole_of_typed typed
      · cases h
    · cases h
  | .cast e type, h => by
    simp only [Expr.type?] at h
    split at h
    · exact e.isWhole_of_type? h
    · cases h
  | .arith _ lhs rhs, h | .compare _ lhs rhs, h => by
    simp only [Expr.type?] at h
    split at h
    · next typed =>
      obtain ⟨ty', eq⟩ := Option.isSome_iff_exists.1 typed
      exact ⟨lhs.isWhole_of_type? h, rhs.isWhole_of_type? eq⟩
    · cases h

theorem Args.isWhole_of_typed {ρ : Env} : (as : Args) → as.typed ρ → as.IsWhole
  | .close, _ => trivial
  | .cutOff _, h => nomatch h
  | .arg e rest, h => by
    simp only [Args.typed, Bool.and_eq_true] at h
    obtain ⟨ty, eq⟩ := Option.isSome_iff_exists.1 h.1
    exact ⟨e.isWhole_of_type? eq, rest.isWhole_of_typed h.2⟩

end

theorem Decl.Fits.isWhole {ρ : Env} {d : Decl} (h : d.Fits ρ) : d.IsWhole := by
  obtain ⟨complete, -, init⟩ := h
  refine ⟨complete, fun e he => ?_⟩
  obtain ⟨ty, eq, -⟩ := init e he
  exact e.isWhole_of_type? eq

mutual

theorem Stmt.Legal.isWhole {p : Point} : {s : Stmt} → s.Legal p → s.IsWhole
  | .decl _, h => h.1.isWhole
  | .cond _, h => IfChain.Legal.isWhole h
  | .loop e _, h => by
    obtain ⟨⟨ty, eq⟩, legal⟩ := h
    exact ⟨e.isWhole_of_type? eq, Block.Legal.isWhole legal⟩
  | .ret _ none, _ => nofun
  | .ret _ (some e), h => by
    intro e' eq
    cases eq
    exact e.isWhole_of_type? h.1
  | .block _, h => Block.Legal.isWhole h
  | .empty, _ => trivial
  | .expr e, h => by
    obtain ⟨ty, eq⟩ := h
    exact e.isWhole_of_type? eq

theorem Block.Legal.isWhole {p : Point} : {b : Block} → b.Legal p → b.IsWhole
  | .close, _ => trivial
  | .cutOff _, h => h
  | .stmt _ _, h => ⟨Stmt.Legal.isWhole h.1, Block.Legal.isWhole h.2⟩

theorem IfChain.Legal.isWhole {p : Point} : {c : IfChain} → c.Legal p → c.IsWhole
  | .mk e _ _, h => by
    obtain ⟨⟨ty, eq⟩, inside, other⟩ := h
    exact ⟨e.isWhole_of_type? eq, Block.Legal.isWhole inside, Else.Legal.isWhole other⟩

theorem Else.Legal.isWhole {p : Point} : {o : Else} → o.Legal p → o.IsWhole
  | .absent, _ => trivial
  | .block _, h => Block.Legal.isWhole h
  | .chain _, h => IfChain.Legal.isWhole h

end

theorem Item.Legal.isWhole {d : Draft} {i : Item} (h : i.Legal d) : i.IsWhole := by
  cases i with
  | fn f =>
    obtain ⟨type, eq, -⟩ := h.ret
    exact ⟨⟨type, eq⟩, h.body.isWhole⟩
  | decl g => exact h.1.isWhole

theorem LegalItems.isWhole {items : List Item} {d : Draft} (h : LegalItems d items) :
    ∀ i ∈ items, i.IsWhole := by
  induction items generalizing d with
  | nil => nofun
  | cons i rest ih => exact List.forall_mem_cons.2 ⟨h.1.isWhole, ih h.2⟩

theorem Program.Legal.isWhole {p : Program} (h : p.Legal) : p.IsWhole :=
  ⟨h.1.isWhole, h.2⟩

/-! ### Sources -/

/-- The grammar gives a source the program `p` and no other. -/
def Program.IsTreeOf (p : Program) (source : String) : Prop :=
  ∀ q, Grammar.IsProgram (.ofSource source) q ↔ q = p

/-- A tree without a hole is the one that the grammar gives. -/
theorem Program.IsWhole.isTreeOf {source : String} (h : (Program.ofSource source).IsWhole) :
    (Program.ofSource source).IsTreeOf source := by
  refine fun q => ⟨fun hq => hq.parse.symm, ?_⟩
  rintro rfl
  exact Grammar.isProgram h

/-- A tree that keeps the static rules is the one that the grammar gives. -/
theorem Program.Legal.isTreeOf {source : String} (h : (Program.ofSource source).Legal) :
    (Program.ofSource source).IsTreeOf source :=
  h.isWhole.isTreeOf

end CZero
