import NodeCatalog.Proofs.Container.Tally

/-!
# The census of a tree

The census counts the entries of a tree by label, id and name; where they stand does not matter.
It is a tally, so that a change of one container changes the census of the tree by what it changes
in that container (`exists_census_modifyAt`), and an entry that is taken out takes its own census
away (`census_eraseAt`).  One that is added brings it (`census_add`), and one that is relocated keeps
it (`census_relocate`).
-/

namespace NodeCatalog

namespace Entry

/-- The labels, ids and names of entries and all they hold, as often as they occur. -/
def census (es : List Entry) : Multiset (String × String × String) :=
  ((listed es).map fun e => (e.label, e.id, e.name) : List (String × String × String))

theorem census_eq_tally (es : List Entry) :
    census es = tally (fun e => (e.label, e.id, e.name)) es :=
  rfl

/-- The census does not see what entries hold. -/
theorem censused_mapContainer (f : Container → Container) (e : Entry) :
    ((e.mapContainer f).label, (e.mapContainer f).id, (e.mapContainer f).name) =
      (e.label, e.id, e.name) := by
  cases e <;> rfl

theorem census_ne_zero (e : Entry) : census [e] ≠ 0 := by
  intro h
  rw [census, Multiset.coe_eq_zero, List.map_eq_nil_iff] at h
  exact List.ne_nil_of_mem (mem_listed_self e []) h

/-- Relocating changes paths only. -/
theorem census_relocateAll (path : String) (es : List Entry) :
    census (relocateAll path es) = census es := by
  simp only [census_eq_tally]
  induction es using forest_induction generalizing path with
  | nil => rfl
  | category c sorted entries rest ihe ihr =>
    rw [relocateAll, relocate, tally_cons, ihr, tally_category, ihe, tally_cons _ _ rest,
      tally_category]
    rfl
  | template t rest ihr =>
    rw [relocateAll, tally_cons, ihr, tally_cons _ _ rest]
    cases t <;> rfl

theorem census_relocate (path : String) (e : Entry) : census [e.relocate path] = census [e] :=
  census_relocateAll path [e]

end Entry

namespace Container

/-- The census of what a container holds. -/
def census (k : Container) : Multiset (String × String × String) :=
  Entry.census k.entries

/-- A change of the container at an address leaves the rest of the census as it is. -/
theorem exists_census_modifyAt {a : List Nat} {k inner : Container} (h : k.at? a = some inner) :
    ∃ rest, k.census = inner.census + rest ∧
      ∀ f, (k.modifyAt f a).census = (f inner).census + rest := by
  obtain ⟨rest, hrest, hmodify⟩ := exists_tally_modifyAt _ h
  exact ⟨rest, hrest, fun f => hmodify f fun b => Entry.censused_mapContainer (modifyAt f b)⟩

/-- An entry that is taken out takes its own census away. -/
theorem census_eraseAt {a : List Nat} {k : Container} {e : Entry} (h : k.entryAt? a = some e) :
    k.census = Entry.census [e] + (k.eraseAt a).census :=
  tally_eraseAt _ h fun i b => Entry.censused_mapContainer (modifyAt (eraseAt [i]) b)

theorem census_add {k : Container} {e : Entry} (h : k.hasClash e = false) :
    (k.add e).2.census = k.census + Entry.census [e] := by
  rw [entries_add_of_not_hasClash h]
  exact Entry.tally_append _ k.entries [e]

end Container

end NodeCatalog
