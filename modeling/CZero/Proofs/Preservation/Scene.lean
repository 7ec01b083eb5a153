import CZero.Proofs.Codegen.Scope
import CZero.Proofs.Preservation.Simulation

/-!
# Variables on the stack

A running function finds its variables above its result, in the order of their declaration and the
parameters first; above them are the values that it works on.

    below | result | parameters | local variables | work

All of this has its place before the body starts, so variables that are declared later have one too, and
hold zero until then.
-/

namespace CZero

open State

/-- A running function with its variables, and what lies below it. -/
structure Scene where
  act : Activation
  /-- All variables, in the order of their declaration. -/
  names : List String
  below : List Int64
  base : below.length = act.base
  nodup : names.Nodup
  small : names.length < 2 ^ 62

namespace Scene

/-- The stack up to the values that the function works on. -/
def frame (c : Scene) (st : Store) : List Int64 :=
  c.below ++ List.replicate c.act.retSlots 0 ++ c.names.map st.locals

/-- The machine is at place `pc` of the function, with the values of the store, and works on `work`. -/
def Shows (c : Scene) (L : Layer) (pc : Nat) (work : List Int64) (st : Store) (t : State) : Prop :=
  ∃ g, L.Agrees st.globals g ∧ t = c.act.state pc (c.frame st ++ work) g st.console

/-- The names in scope stand for variables where the machine has them; `σ` are those of the function. -/
structure Sees (c : Scene) (L : Layer) (ρ : Env) (σ : List String) : Prop where
  ret : ρ.ret.returnSlots = c.act.retSlots
  outer : ∀ x b, ρ.outer.lookup x = some b → (x, b) ∈ L
  inner : ∀ x b, ρ.inner.bind (·.lookup x) = some b → x ∈ σ ∧ ∃ k ty isConst,
    b = .var (.ofVariable c.act.paramSlots k) ty isConst ∧ c.names[k]? = some x
  free : ∀ x, ρ.inner.bind (·.lookup x) = none → x ∉ σ

/-- The value is the address of a variable. -/
inductive Locates (c : Scene) (L : Layer) (σ : List String) (x : String) : Int64 → Prop
  | inner {k : Nat} : x ∈ σ → c.names[k]? = some x →
    Locates c L σ x (Int64.ofNat (c.act.base + c.act.retSlots + k))
  | outer {i : Nat} {ty : Ty} {isConst : Bool} : x ∉ σ → (x, .var (.glob i) ty isConst) ∈ L →
    Locates c L σ x (globalBase + Int64.ofNat i)

variable {c : Scene} {m : Image} {L : Layer} {ρ : Env} {σ : List String} {pc n : Nat}
  {work : List Int64} {st : Store} {s : State} {x : String} {v : Int64}

theorem length_frame (c : Scene) (st : Store) :
    (c.frame st).length = c.act.base + c.act.retSlots + c.names.length := by
  simp [frame, c.base, Nat.add_assoc]

/-- One step that pushes a value. -/
theorem Shows.push (h : c.Shows L pc work st s)
    (leads : ∀ g, Leads m 1 (c.act.state pc (c.frame st ++ work) g st.console)
      (c.act.state (pc + 1) (c.frame st ++ work ++ [v]) g st.console)) :
    ∃ t, Leads m 1 s t ∧ c.Shows L (pc + 1) (work ++ [v]) st t := by
  obtain ⟨g, agrees, rfl⟩ := h
  refine ⟨_, leads g, g, agrees, ?_⟩
  rw [List.append_assoc]

/-- Room for a result. -/
theorem Shows.alloc {r : Nat} (h : c.Shows L pc work st s) (lt : r < 2 ^ 63)
    (hi : m.instr? c.act.function pc = some (.withOperand .stackalloc (Int64.ofNat r))) :
    ∃ t, Leads m 1 s t ∧ c.Shows L (pc + 1) (work ++ List.replicate r 0) st t := by
  obtain ⟨g, agrees, rfl⟩ := h
  refine ⟨_, leads_stackalloc hi lt, g, agrees, ?_⟩
  rw [List.append_assoc]

/-- The address of the `k`-th variable. -/
theorem Shows.pushVariable {k r : Nat} (h : c.Shows L pc work st s) (lt : k < c.names.length)
    (hr : k < c.act.paramSlots → r = c.act.retSlots) (small : c.act.retSlots ≤ 1)
    (holds : m.Holds c.act.function pc ((Slot.ofVariable c.act.paramSlots k).code r)) :
    ∃ t, Leads m 1 s t ∧
      c.Shows L (pc + 1) (work ++ [Int64.ofNat (c.act.base + c.act.retSlots + k)]) st t := by
  have bound := c.small
  refine h.push fun g => ?_
  unfold Slot.ofVariable at holds
  by_cases param : k < c.act.paramSlots
  · rw [if_pos param, Slot.code, Image.holds_cons, hr param] at holds
    have leads := leads_arga (x := c.frame st ++ work) (g := g) (o := st.console) holds.1 (by omega)
    rwa [show c.act.base + (k + c.act.retSlots) = c.act.base + c.act.retSlots + k by omega] at leads
  · rw [if_neg param, Slot.code, Image.holds_cons] at holds
    have leads := leads_loca (x := c.frame st ++ work) (g := g) (o := st.console) holds.1 (by omega)
    rwa [show c.act.base + c.act.retSlots + c.act.paramSlots + (k - c.act.paramSlots) =
      c.act.base + c.act.retSlots + k by omega] at leads

end Scene

/-! ### Names of a program -/

/-- The globals and functions of a whole program, with their names. -/
structure Layer.IsOf (L : Layer) (p : Program) : Prop where
  nodup : (L.map Prod.fst).Nodup
  /-- Variables outside of functions are globals. -/
  global : ∀ x slot ty isConst, (x, .var slot ty isConst) ∈ L → ∃ i, slot = .glob i ∧ i < 2 ^ 62
  /-- No two variables share a global. -/
  separate : ∀ x y i ty isConst ty' isConst', (x, .var (.glob i) ty isConst) ∈ L →
    (y, .var (.glob i) ty' isConst') ∈ L → x = y
  /-- A function has the result type that calls of it reckon with. -/
  ret : ∀ x i ty f, (x, .fn i ty) ∈ L → p.callee? x = some f → ty = f.ret

namespace Layer

variable {L : Layer} {p : Program}

theorem IsOf.unique (h : L.IsOf p) {x : String} {b b' : Binding} (hb : (x, b) ∈ L) (hb' : (x, b') ∈ L) :
    b = b' :=
  congrArg Prod.snd (List.inj_on_of_nodup_map h.nodup hb hb' rfl)

/-- A value that is stored in a global becomes the value of its variable and of no other. -/
theorem Agrees.set (h : L.IsOf p) {x : String} {i : Nat} {ty : Ty} {isConst : Bool}
    (mem : (x, .var (.glob i) ty isConst) ∈ L) {values : String → Int64} {g : Array Int64}
    (agrees : L.Agrees values g) (lt : i < g.size) (v : Int64) :
    L.Agrees (Function.update values x v) (g.set i v) := by
  intro y j ty' isConst' hy
  rw [Array.getElem?_set]
  by_cases eq : y = x
  · subst eq
    obtain ⟨⟩ := h.unique hy mem
    rw [if_pos rfl, Function.update_self]
  · have ne : i ≠ j := by
      rintro rfl
      exact eq (h.separate _ _ _ _ _ _ _ hy mem)
    rw [if_neg ne, Function.update_of_ne eq]
    exact agrees y j ty' isConst' hy

end Layer

/-! ### Reading and writing -/

namespace Scene

variable {c : Scene} {m : Image} {L : Layer} {p : Program} {ρ : Env} {σ : List String} {pc n : Nat}
  {work : List Int64} {st : Store} {s : State} {x : String} {v : Int64}

/-- A name that stands for a variable. -/
theorem Sees.pushAddress (sees : c.Sees L ρ σ) (names : L.IsOf p) {name : Ident} {slot : Slot} {ty : Ty}
    {isConst : Bool} (found : ρ.find? name.name = some (.var slot ty isConst))
    (holds : m.Holds c.act.function pc (ρ.address name)) (h : c.Shows L pc work st s) :
    (ρ.address name).length = 1 ∧ ∃ v t, Leads m 1 s t ∧ c.Locates L σ name.name v ∧
      c.Shows L (pc + 1) (work ++ [v]) st t := by
  have small : c.act.retSlots ≤ 1 := sees.ret ▸ ρ.ret.returnSlots_le
  unfold Env.address at holds ⊢
  rw [found] at holds ⊢
  dsimp only at holds ⊢
  cases inner : ρ.inner.bind (·.lookup name.name) with
  | some b =>
    obtain rfl : b = .var slot ty isConst := by
      rw [Names.find?, inner, Option.some_or] at found
      exact Option.some_inj.1 found
    obtain ⟨mem, k, ty', isConst', ⟨⟩, hk⟩ := sees.inner _ _ inner
    obtain ⟨lt, -⟩ := List.getElem?_eq_some_iff.1 hk
    obtain ⟨t, leads, shows⟩ := h.pushVariable lt (fun _ => sees.ret) small holds
    refine ⟨?_, _, t, leads, .inner mem hk, shows⟩
    unfold Slot.ofVariable
    split <;> rfl
  | none =>
    rw [Names.find?, inner, Option.none_or] at found
    have mem := sees.outer _ _ found
    obtain ⟨i, rfl, -⟩ := names.global _ _ _ _ mem
    rw [Slot.code, Image.holds_cons] at holds
    obtain ⟨t, leads, shows⟩ := h.push fun g => leads_globa holds.1
    exact ⟨rfl, _, t, leads, .outer (sees.free _ inner) mem, shows⟩

/-- Functions are declared outside of functions. -/
theorem Sees.mem_of_fn (sees : c.Sees L ρ σ) {i : Nat} {ret : Ty} (found : ρ.find? x = some (.fn i ret)) :
    (x, .fn i ret) ∈ L := by
  unfold Names.find? at found
  cases inner : ρ.inner.bind (·.lookup x) with
  | none =>
    rw [inner, Option.none_or] at found
    exact sees.outer _ _ found
  | some b =>
    obtain ⟨-, _, _, _, rfl, -⟩ := sees.inner _ _ inner
    rw [inner] at found
    cases found

theorem getElem?_frame {k : Nat} (h : c.names[k]? = some x) (st : Store) :
    (c.frame st)[c.act.base + c.act.retSlots + k]? = some (st.locals x) := by
  rw [frame, List.getElem?_append_right (by simp [c.base])]
  simp [c.base, h]

theorem set_frame {k : Nat} (h : c.names[k]? = some x) (st : Store) (v : Int64) :
    (c.frame st).set (c.act.base + c.act.retSlots + k) v =
      c.frame { st with locals := Function.update st.locals x v } := by
  rw [frame, List.set_append_right _ _ (by simp [c.base])]
  unfold frame
  congr 1
  simp only [List.length_append, List.length_replicate, c.base, Nat.add_sub_cancel_left]
  refine List.ext_getElem? fun i => ?_
  rw [List.getElem?_set, List.getElem?_map, List.getElem?_map, List.length_map]
  obtain ⟨lt, hx⟩ := List.getElem?_eq_some_iff.1 h
  by_cases eq : k = i
  · subst eq
    rw [if_pos rfl, if_pos lt, h, Option.map_some, Function.update_self]
  · rw [if_neg eq]
    cases hi : c.names[i]? with
    | none => rfl
    | some y =>
      obtain ⟨lt', hy⟩ := List.getElem?_eq_some_iff.1 hi
      have ne : y ≠ x := by
        rintro rfl
        exact eq ((List.Nodup.getElem_inj_iff c.nodup).1 (hx.trans hy.symm))
      rw [Option.map_some, Option.map_some, Function.update_of_ne ne]

theorem Locates.load (h : c.Locates L σ x v) (names : L.IsOf p)
    (hi : m.instr? c.act.function pc = some (.plain .load64)) (shows : c.Shows L pc (work ++ [v]) st s) :
    Sim m L n s (fun u st t => c.Shows L (pc + 1) (work ++ [u]) st t) (Eval.load σ x st) := by
  obtain ⟨g, agrees, rfl⟩ := shows
  unfold Eval.load
  rw [← List.append_assoc]
  cases h with
  | @inner k mem hk =>
    rw [if_pos mem]
    have found : (c.frame st ++ work)[c.act.base + c.act.retSlots + k]? = some (st.locals x) := by
      have := getElem?_frame hk st
      rwa [List.getElem?_append_left (List.getElem?_eq_some_iff.1 this).1]
    refine .ok (leads_load_stack hi found) ⟨g, agrees, ?_⟩
    rw [List.append_assoc]
  | outer free mem =>
    obtain ⟨_, ⟨⟩, small⟩ := names.global _ _ _ _ mem
    rw [if_neg free]
    refine .ok (leads_load_global hi (agrees _ _ _ _ mem) small) ⟨g, agrees, ?_⟩
    rw [List.append_assoc]

theorem Locates.store {u : Int64} (h : c.Locates L σ x v) (names : L.IsOf p)
    (hi : m.instr? c.act.function pc = some (.plain .store64))
    (shows : c.Shows L pc (work ++ [v] ++ [u]) st s) :
    Sim m L n s (fun _ st t => c.Shows L (pc + 1) work st t) (Eval.store σ x u st) := by
  obtain ⟨g, agrees, rfl⟩ := shows
  unfold Eval.store
  rw [← List.append_assoc, ← List.append_assoc]
  cases h with
  | @inner k mem hk =>
    rw [if_pos mem]
    obtain ⟨lt, -⟩ := List.getElem?_eq_some_iff.1 (getElem?_frame hk st)
    refine .ok (leads_store_stack hi (by rw [List.length_append]; omega)) ⟨g, agrees, ?_⟩
    rw [List.set_append_left _ _ lt, set_frame hk]
  | outer free mem =>
    obtain ⟨_, ⟨⟩, small⟩ := names.global _ _ _ _ mem
    rw [if_neg free]
    obtain ⟨lt, -⟩ := Array.getElem?_eq_some_iff.1 (agrees _ _ _ _ mem)
    exact .ok (leads_store_global hi lt small) ⟨_, agrees.set names mem lt u, rfl⟩

end Scene

end CZero
