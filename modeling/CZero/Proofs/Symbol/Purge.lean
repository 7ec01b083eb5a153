import CZero.Proofs.Symbol.Layers

/-!
# Symbols of closed layers

Closing layer `l` closes the layers inside it too, and forgets the symbols of layer `l` itself. So a symbol
of a layer further in stays stored after its layer is closed, and is counted when a layer of that depth is
closed the next time. Main statement (`Table.isPurged_iff`): after a sequence of changes to a fresh table
only symbols of open layers are stored, at every time, exactly if no layer was closed while a layer inside
it had symbols. That is so if layers are closed from the innermost outwards.

A change that closes nothing adds at most one symbol, with the next number and in an open layer, and
neither renumbers nor moves the others (`Table.placement_after`). All invariants come from that.
-/

namespace CZero

namespace Table

/-- The table that changes to a fresh one lead to. -/
def ofChanges (cs : List Change) : Table :=
  cs.foldl Table.after initial

/-- The numbers of the stored symbols, with their layers. -/
def placement (t : Table) : List (Nat × Nat) :=
  t.entries.map fun e => (e.1, e.2.layer)

/-- No symbol of a layer inside layer `l` is stored. -/
def Within (t : Table) (l : Nat) : Prop :=
  ∀ e ∈ t.entries, e.2.layer ≤ l

/-- Every stored symbol belongs to an open layer. -/
def IsPurged (t : Table) : Prop :=
  t.Within t.layer

/-- What closing layer `l` does to the stored symbols: it forgets those of layer `l`. These are all symbols
of the layers that are closed exactly if no layer inside layer `l` has any. -/
structure Forgets (t : Table) (l : Nat) : Prop where
  count : (t.closeScope l).1 = t.entries.countP (·.2.layer = l)
  get : ∀ id, (t.closeScope l).2.get? id = (t.get? id).filter (·.layer != l)
  all : ((∀ id s, t.get? id = some s → l ≤ s.layer → (t.closeScope l).2.get? id = none) ∧
    (t.closeScope l).1 = t.entries.countP (l ≤ ·.2.layer)) ↔ t.Within l

theorem within_iff {t : Table} {l : Nat} : t.Within l ↔ ∀ x ∈ t.placement, x.2 ≤ l := by
  rw [Within, placement, List.forall_mem_map]

/-! ### Changes that close nothing -/

theorem placement_modify (t : Table) (id : Nat) {f : Symbol → Symbol} (layer : ∀ s, (f s).layer = s.layer) :
    (t.modify id f).placement = t.placement := by
  simp only [placement, modify, List.map_map]
  refine List.map_congr_left fun e _ => ?_
  simp only [Function.comp_apply]
  split <;> simp [layer]

theorem placement_insert (t : Table) (s : Symbol) :
    (t.insert s).placement = t.placement ++ [(t.nextId, s.layer)] := by
  simp [placement, insert]

theorem placement_declare {t t' : Table} {s : Symbol} {id : Nat} (h : t.declare s = .ok (id, t')) :
    t'.placement = t.placement ++ [(t.nextId, min s.layer t.layer)] ∧ t'.layer = t.layer := by
  rw [declare] at h
  split at h
  · cases h
  · cases h
    split <;> exact ⟨placement_insert t _, by simp [layer, bindFunction, bindName, insert]⟩

/-- A change that closes nothing adds at most one symbol, in an open layer, and closes no layer. -/
theorem placement_after (t : Table) {c : Change} (keeps : ∀ l, c ≠ .closeScope l) :
    t.layer ≤ (t.after c).layer ∧ ((t.after c).placement = t.placement ∨
      ∃ l ≤ t.layer, (t.after c).placement = t.placement ++ [(t.nextId, l)]) := by
  cases c with
  | closeScope l => exact absurd rfl (keeps l)
  | openScope => exact ⟨by simp [after, Change.result, layer, Table.openScope], .inl rfl⟩
  | declare s =>
    rcases res : t.declare s with e | ⟨id, t'⟩
    · have failed : (Change.declare s).result t = .error e := by rw [Change.result, res]; rfl
      rw [after_eq_self failed]
      exact ⟨Nat.le_refl _, .inl rfl⟩
    · have done : (Change.declare s).result t = .ok t' := by rw [Change.result, res]; rfl
      obtain ⟨placement, layer⟩ := placement_declare res
      rw [after_eq done]
      exact ⟨Nat.le_of_eq layer.symm, .inr ⟨_, Nat.min_le_right _ _, placement⟩⟩
  | declareLiteral text =>
    exact ⟨Nat.le_refl _, .inr ⟨0, Nat.zero_le _, placement_insert t _⟩⟩
  | _ =>
    refine ⟨by rw [layer, layer, scopes_after rfl], .inl ?_⟩
    rcases res : Change.result t _ with e | t'
    · rw [after_eq_self res]
    · obtain ⟨id, f, rfl, same⟩ := exists_modify rfl (by rintro text ⟨⟩) res
      rw [after_eq res]
      exact placement_modify t id fun s => (same s).2

theorem IsPurged.after {t : Table} (h : t.IsPurged) {c : Change} (keeps : ∀ l, c ≠ .closeScope l) :
    (t.after c).IsPurged := by
  obtain ⟨le, placement⟩ := placement_after t keeps
  rw [IsPurged, within_iff] at h ⊢
  rcases placement with same | ⟨l, open_l, added⟩
  · rw [same]
    exact fun x hx => Nat.le_trans (h x hx) le
  · rw [added]
    intro x hx
    rcases List.mem_append.1 hx with hx | hx
    · exact Nat.le_trans (h x hx) le
    · rw [List.mem_singleton.1 hx]
      exact Nat.le_trans open_l le

/-! ### Closing a layer -/

theorem closeScope_eq {t : Table} {l : Nat} (pos : 1 ≤ l) (le : l ≤ t.layer) : t.closeScope l =
    (t.entries.countP (·.2.layer = l),
      { t with entries := t.entries.filter (·.2.layer != l), scopes := t.scopes.take l }) := by
  have inside : ¬ (l = 0 ∨ t.layer < l) := by omega
  rw [closeScope, if_neg inside]
  refine Prod.ext ?_ rfl
  have split : t.entries.length =
      t.entries.countP (·.2.layer = l) + (t.entries.filter (·.2.layer != l)).length := by
    rw [List.length_eq_countP_add_countP (·.2.layer = l), ← List.countP_eq_length_filter]
    congr 2
    funext e
    rw [Bool.eq_iff_iff]
    simp
  exact Nat.sub_eq_of_eq_add split

/-- Symbols are stored under numbers of their own. -/
def IsDistinct (t : Table) : Prop :=
  (t.entries.map Prod.fst).Nodup

theorem isDistinct_iff {t : Table} : t.IsDistinct ↔ (t.placement.map Prod.fst).Nodup := by
  rw [IsDistinct, placement, List.map_map]
  rfl

theorem lookup_filter_eq {entries : List (Nat × Symbol)} (nodup : (entries.map Prod.fst).Nodup)
    (keep : Symbol → Bool) (id : Nat) :
    (entries.filter (keep ·.2)).lookup id = (entries.lookup id).filter keep := by
  induction entries with
  | nil => rfl
  | cons e rest ih =>
    obtain ⟨i, s⟩ := e
    obtain ⟨new, distinct⟩ := List.nodup_cons.1 nodup
    rw [List.filter_cons, List.lookup_cons]
    by_cases eq : id = i
    · subst eq
      have missing : (rest.filter (keep ·.2)).lookup id = none := by
        rw [List.lookup_eq_none_iff]
        rintro ⟨j, s'⟩ he
        refine bne_iff_ne.2 fun eq => new ?_
        exact List.mem_map.2 ⟨_, List.mem_of_mem_filter he, eq.symm⟩
      by_cases kept : keep s
      · simp [kept, Option.filter]
      · simp [kept, missing, Option.filter]
    · have other : (id == i) = false := beq_eq_false_iff_ne.2 eq
      rw [other]
      split
      · rw [List.lookup_cons, other]
        exact ih distinct
      · exact ih distinct

theorem IsDistinct.get?_eq {t : Table} (h : t.IsDistinct) {e : Nat × Symbol} (mem : e ∈ t.entries) :
    t.get? e.1 = some e.2 := by
  obtain ⟨before, later, split⟩ := List.append_of_mem mem
  refine List.lookup_eq_some_iff.2 ⟨before, later, split, fun x hx => bne_iff_ne.2 fun eq => ?_⟩
  rw [IsDistinct, split, List.map_append, List.map_cons] at h
  exact (List.nodup_append.1 h).2.2 _ (List.mem_map_of_mem hx) _ List.mem_cons_self eq.symm

theorem IsDistinct.closeScope {t : Table} (h : t.IsDistinct) (l : Nat) : (t.closeScope l).2.IsDistinct := by
  rw [Table.closeScope]
  split
  · exact h
  · exact h.sublist (List.filter_sublist.map _)

theorem IsDistinct.forgets {t : Table} (distinct : t.IsDistinct) {l : Nat} (pos : 1 ≤ l) (le : l ≤ t.layer) :
    t.Forgets l := by
  have count : (t.closeScope l).1 = t.entries.countP (·.2.layer = l) := by rw [closeScope_eq pos le]
  have get : ∀ id, (t.closeScope l).2.get? id = (t.get? id).filter (·.layer != l) := by
    intro id
    rw [closeScope_eq pos le]
    exact lookup_filter_eq distinct (·.layer != l) id
  refine ⟨count, get, fun ⟨gone, _⟩ e he => ?_, fun within => ⟨fun id s found inside => ?_, ?_⟩⟩
  · by_contra deeper
    have stored := distinct.get?_eq he
    have stays := gone e.1 e.2 stored (by omega)
    rw [get, stored] at stays
    have : e.2.layer = l := by simpa [Option.filter] using stays
    omega
  · obtain ⟨_, _, split, -⟩ := List.lookup_eq_some_iff.1 found
    have : s.layer ≤ l := within (id, s) (by rw [split]; simp)
    have same : s.layer = l := by omega
    rw [get, found]
    simp [Option.filter, same]
  · rw [count]
    refine List.countP_congr fun e he => ?_
    have := within e he
    simp only [decide_eq_true_eq]
    omega

/-- Closing a layer leaves symbols of open layers only, exactly if no layer inside it has symbols. -/
theorem isPurged_closeScope_iff {t : Table} {l : Nat} (pos : 1 ≤ l) (le : l ≤ t.layer) :
    (t.closeScope l).2.IsPurged ↔ t.Within l := by
  have layer : (t.closeScope l).2.layer = l - 1 := by
    rw [closeScope_eq pos le]
    simp only [Table.layer, List.length_take] at le ⊢
    omega
  rw [IsPurged, layer, closeScope_eq pos le]
  simp only [Within, List.mem_filter, bne_iff_ne, and_imp]
  constructor
  · intro purged e he
    by_cases same : e.2.layer = l
    · omega
    · have := purged e he same
      omega
  · intro within e he ne
    have := within e he
    omega

/-! ### Sequences of changes -/

theorem IsDistinct.after {t : Table} (h : t.IsDistinct) (fresh : ∀ e ∈ t.entries, e.1 < t.nextId)
    (c : Change) : (t.after c).IsDistinct := by
  by_cases closes : ∃ l, c = .closeScope l
  · obtain ⟨l, rfl⟩ := closes
    exact h.closeScope l
  · rw [isDistinct_iff] at h ⊢
    rcases (placement_after t (by simpa using closes)).2 with same | ⟨l, -, added⟩
    · rwa [same]
    · have new : t.nextId ∉ t.placement.map Prod.fst := by
        intro mem
        obtain ⟨_, hx, eq⟩ := List.mem_map.1 mem
        obtain ⟨e, he, rfl⟩ := List.mem_map.1 hx
        exact Nat.ne_of_lt (fresh e he) eq
      rw [added, List.map_append, List.map_singleton]
      exact h.append (List.nodup_singleton _) (List.disjoint_singleton.2 new)

theorem ofChanges_concat (cs : List Change) (c : Change) : ofChanges (cs ++ [c]) = (ofChanges cs).after c :=
  List.foldl_concat ..

theorem isDistinct_ofChanges (cs : List Change) : (ofChanges cs).IsDistinct := by
  induction cs using List.reverseRecOn with
  | nil => exact (by decide : (initial.entries.map Prod.fst).Nodup)
  | append_singleton cs c ih =>
    rw [ofChanges_concat]
    exact ih.after (keeps_initial.foldl cs).fresh c

theorem isPurged_initial : initial.IsPurged := by
  have outer : ∀ e ∈ initial.entries, e.2.layer ≤ initial.layer := by decide
  exact outer

/-- The induction over the changes: a layer may be closed if the layers inside it have no symbols, as far as
the table stored symbols of open layers only until then. -/
theorem isPurged_of_closes {cs : List Change}
    (closes : ∀ before l, before ++ [.closeScope l] <+: cs → 1 ≤ l → l ≤ (ofChanges before).layer →
      (ofChanges before).IsPurged → (ofChanges before).Within l) : (ofChanges cs).IsPurged := by
  induction cs using List.reverseRecOn with
  | nil => exact isPurged_initial
  | append_singleton cs c ih =>
    have purged := ih fun before l sub => closes before l (sub.trans (List.prefix_append ..))
    rw [ofChanges_concat]
    by_cases closing : ∃ l, c = .closeScope l
    · obtain ⟨l, rfl⟩ := closing
      by_cases inside : 1 ≤ l ∧ l ≤ (ofChanges cs).layer
      · exact (isPurged_closeScope_iff inside.1 inside.2).2
          (closes cs l List.prefix_rfl inside.1 inside.2 purged)
      · have same : (ofChanges cs).closeScope l = (0, ofChanges cs) := if_pos (by omega)
        change ((ofChanges cs).closeScope l).2.IsPurged
        rwa [same]
    · exact purged.after (by simpa using closing)

/-- After changes to a fresh table, closing a layer forgets the symbols of that layer. Only symbols of open
layers are stored, at every time, exactly if no layer was closed while a layer inside it had symbols, and
so if layers are closed from the innermost outwards. -/
theorem isPurged_iff (cs : List Change) :
    (∀ l, 1 ≤ l → l ≤ (ofChanges cs).layer → (ofChanges cs).Forgets l) ∧
    ((∀ before, before <+: cs → (ofChanges before).IsPurged) ↔
      ∀ before l, before ++ [.closeScope l] <+: cs → 1 ≤ l → l ≤ (ofChanges before).layer →
        (ofChanges before).Within l) ∧
    ((∀ before l, before ++ [.closeScope l] <+: cs → 1 ≤ l → (ofChanges before).layer ≤ l) →
      (ofChanges cs).IsPurged) := by
  refine ⟨fun l => (isDistinct_ofChanges cs).forgets, ⟨?_, ?_⟩, ?_⟩
  · intro purged before l sub pos le
    have after := purged _ sub
    rw [ofChanges_concat] at after
    exact (isPurged_closeScope_iff pos le).1 after
  · intro closes before sub
    exact isPurged_of_closes fun before' l sub' pos le _ => closes before' l (sub'.trans sub) pos le
  · intro innermost
    refine isPurged_of_closes fun before l sub pos _ purged e he => ?_
    exact Nat.le_trans (purged e he) (innermost before l sub pos)

/-- A variable of layer 2 stays when layer 1 is closed around it. -/
theorem isPurged_iff_nested :
    let changes := [.openScope, .openScope, .declare (.ofVariable "x" .int 2 false (.loc 0))]
    (ofChanges changes).layer = 2 ∧ (ofChanges changes).Forgets 1 ∧
      ((ofChanges changes).closeScope 1).1 = 0 ∧
      ((ofChanges changes).closeScope 1).2.get? 9 = some (.ofVariable "x" .int 2 false (.loc 0)) ∧
      ¬ ∀ before, before <+: changes ++ [.closeScope 1] → (ofChanges before).IsPurged := by
  intro changes
  have layer : (ofChanges changes).layer = 2 := by decide +kernel
  have inside : ¬ ∀ e ∈ (ofChanges changes).entries, e.2.layer ≤ 1 := by decide +kernel
  refine ⟨layer, (isPurged_iff changes).1 1 (by decide) (by rw [layer]; decide), by decide +kernel,
    by decide +kernel, fun purged => inside ?_⟩
  exact (isPurged_iff (changes ++ [.closeScope 1])).2.1.1 purged changes 1 List.prefix_rfl (by decide)
    (by rw [layer]; decide)

end Table

end CZero
