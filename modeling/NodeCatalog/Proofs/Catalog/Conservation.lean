import NodeCatalog.Proofs.Catalog.Relocation
import NodeCatalog.Proofs.Container.Census

/-!
# What a move conserves

A move that is carried out should not change the census of the tree.  It looks up the kind of the
entry at the path that the search tells, and where ids hold slashes or are blank, another entry may
stand there.  Then the entry is checked against the target by the wrong kind, and the target may
silently refuse it.  So the census is conserved exactly if the target holds no entry that excludes
the one that is moved, other than that one itself (`census_move_iff`).  In the trees that runs reach
this is always so (`census_move_of_run`).
-/

namespace NodeCatalog.Catalog

open Container

variable {cat : Catalog} {id path : String}

theorem census_of_planMove {plan : Plan} (hplan : cat.planMove id path = .ok plan) {p t : List Nat}
    {e : Entry} {receiver : Container} (he : cat.root.IsFirst id p e)
    (ht : cat.root.trace (Path.segments path) = some t) (hat : cat.root.at? t = some receiver) :
    (cat.move id path).catalog.root.census = cat.root.census ↔
      ∀ j x, receiver.entries[j]? = some x → x.clashes e = true → t ++ [j] = p := by
  obtain ⟨p', e', t', -, rest, he', ht', -, hp, -, hrest, hmove⟩ := move_of_planMove hplan
  obtain ⟨rfl, rfl⟩ := he.unique he'
  obtain rfl := Option.some.inj (ht.symm.trans ht')
  obtain ⟨others, hothers, hmodify⟩ := exists_census_modifyAt hrest
  rw [hmove, hmodify, census_eraseAt he.entryAt, hothers, ← hasClash_of_eraseAt hat hp hrest]
  -- what decides is whether the target takes the entry once this is out
  rcases hclash : rest.hasClash e with _ | _
  · rw [census_add ((hasClash_relocate _ _ _).trans hclash), Entry.census_relocate, add_assoc,
      add_left_comm]
    exact iff_of_true rfl rfl
  · -- the target refuses the entry, and so it is lost
    rw [entries_add_of_hasClash ((hasClash_relocate _ _ _).trans hclash)]
    refine iff_of_false (fun heq => ?_) Bool.false_ne_true.symm
    exact Entry.census_ne_zero e (right_eq_add.mp heq)

/-- A move that is carried out conserves the census exactly if no other entry at the target excludes
the one that is moved. -/
theorem census_move_iff (h : (cat.move id path).answer = .ok ()) :
    ∃ p e t receiver, cat.root.IsFirst id p e ∧
      cat.root.trace (Path.segments path) = some t ∧ cat.root.at? t = some receiver ∧
      ((cat.move id path).catalog.root.census = cat.root.census ↔
        ∀ j x, receiver.entries[j]? = some x → x.clashes e = true → t ++ [j] = p) := by
  obtain ⟨plan, hplan⟩ := move_answer_eq_ok_iff.mp h
  obtain ⟨p, e, t, receiver, -, he, ht, hat, -⟩ := move_of_planMove hplan
  exact ⟨p, e, t, receiver, he, ht, hat, census_of_planMove hplan he ht hat⟩

theorem census_move_iff_nesting :
    (((empty {}).run nesting).move "b" "/").answer = .ok () ∧
      ∃ p e t receiver, ((empty {}).run nesting).root.IsFirst "b" p e ∧
        ((empty {}).run nesting).root.trace (Path.segments "/") = some t ∧
        ((empty {}).run nesting).root.at? t = some receiver ∧
        ((((empty {}).run nesting).move "b" "/").catalog.root.census =
            ((empty {}).run nesting).root.census ↔
          ∀ j x, receiver.entries[j]? = some x → x.clashes e = true → t ++ [j] = p) := by
  have h : (((empty {}).run nesting).move "b" "/").answer = .ok () := by decide +kernel
  exact ⟨h, census_move_iff h⟩

/-- A catalog in which the search for `x` tells the path of a container that holds another entry
with this id. -/
def misleading : Catalog :=
  let odd := (empty {}).addCategory { id := "a/b", name := "Odd" }
    [.template (.node { id := "x", name := "Lost", factory := "f" })]
  odd.catalog.run
    [.addCategory { id := "a", name := "A" },
      .addCategory { id := "b", name := "B", path := "/a" },
      .addCategory { id := "x", name := "X", path := "/a/b" },
      .addCategory { id := "t", name := "T" },
      .addNode { id := "x", name := "Other", factory := "g", path := "/t" }]

theorem census_move_misleading :
    (misleading.move "x" "/t").answer = .ok () ∧
      (misleading.move "x" "/t").catalog.root.census ≠ misleading.root.census := by
  refine ⟨by decide +kernel, ?_⟩
  intro h
  have hcard : Multiset.card (misleading.move "x" "/t").catalog.root.census = 6 := by decide +kernel
  have hcard' : Multiset.card misleading.root.census = 7 := by decide +kernel
  rw [h, hcard'] at hcard
  cases hcard

/-- In what a run reaches, every move that is carried out conserves the census. -/
theorem census_move_of_run (settings : Settings) (ops : List Operation)
    (h : (((empty settings).run ops).move id path).answer = .ok ()) :
    (((empty settings).run ops).move id path).catalog.root.census =
      ((empty settings).run ops).root.census := by
  have htidy := tidyFor_run settings ops
  obtain ⟨plan, hplan⟩ := move_answer_eq_ok_iff.mp h
  obtain ⟨p, e, t, receiver, hm⟩ := htidy.movable_of_planMove hplan
  have hat := at?_of_containerAt hm.resolves hm.target
  apply (census_of_planMove hplan hm.first hm.target hat).mpr
  intro j x hx hclash
  exact absurd hclash (not_clashes_of_mem hm.free (List.mem_of_getElem? hx))

end NodeCatalog.Catalog
