import NodeCatalog.Catalog.Insert
import NodeCatalog.Proofs.Catalog.Move

/-!
# Refused operations

A move, or the insertion of a single entry, that is refused leaves the catalog as it was, whatever
the tree: siblings may exclude each other and ids may be any texts (`refused_unchanged`).  For a
move this needs that its put-back branch is never taken: once a move is planned, its target is
there also after the entry is taken out (`target_of_planMove`).
-/

namespace NodeCatalog.Catalog

open Container

variable {cat : Catalog} {id path : String}

/-- The target of a planned move is there after the entry is taken out. -/
theorem target_of_planMove {plan : Plan} (h : cat.planMove id path = .ok plan) :
    ∃ e root k, cat.root.removeDeep id = some (e, root) ∧
      containerAt { cat with root } plan.target = .ok k := by
  obtain ⟨p, e, t, receiver, rest, he, -, -, -, ht, hrest, -⟩ := move_of_planMove h
  obtain ⟨-, -, -, -, -, -, -, -, -, htarget⟩ := exists_of_planMove h
  refine ⟨e, cat.root.eraseAt p, rest, removeDeep_of_isFirst he, ?_⟩
  rw [containerAt, htarget, Path.segments_normal]
  exact reach_of_trace ht hrest _

/-- A move fails in its plan only, before anything changes. -/
theorem move_unchanged {fault : Fault} (h : (cat.move id path).answer = .error fault) :
    (cat.move id path).catalog = cat := by
  rcases hplan : cat.planMove id path with fault' | plan
  · rw [move, hplan]
  · rw [move_answer_eq_ok_iff.mpr ⟨plan, hplan⟩] at h
    cases h

/-- An operation that gives a fault, or does not add its entry, leaves the catalog as it was, and
the target of a planned move is still there when the entry is taken out. -/
theorem refused_unchanged (cat : Catalog) :
    (∀ id path fault, (cat.move id path).answer = .error fault →
      (cat.move id path).catalog = cat) ∧
    (∀ c entries, (cat.addCategory c entries).answer ≠ .ok true →
      (cat.addCategory c entries).catalog = cat) ∧
    (∀ t, (cat.addNode t).answer ≠ .ok true → (cat.addNode t).catalog = cat) ∧
    (∀ t, (cat.addMetaNode t).answer ≠ .ok true → (cat.addMetaNode t).catalog = cat) ∧
    ∀ id path plan, cat.planMove id path = .ok plan →
      ∃ e root k, cat.root.removeDeep id = some (e, root) ∧
        containerAt { cat with root } plan.target = .ok k := by
  refine ⟨fun id path fault h => move_unchanged h, ?_, ?_, ?_, fun id path plan h => ?_⟩
  · exact fun c entries h => insert_unchanged h
  · exact fun t h => insert_unchanged h
  · exact fun t h => insert_unchanged h
  · exact target_of_planMove h

/-- Two categories, one in the other, with a node in the inner one. -/
def nested : Catalog where
  settings := {}
  root := ⟨true, [.category { id := "a", name := "A" } true
    [.category { id := "b", name := "B", path := "/a" } true
      [.template (.node { id := "x", name := "X", factory := "f", path := "/a/b" })]]]⟩

theorem refused_unchanged_nested :
    (nested.move "a" "/a/b").catalog = nested ∧
    (nested.addCategory { id := "b", name := "C", path := "a" } []).catalog = nested ∧
    (nested.addNode { id := "y", name := "Y", factory := "g", path := "/b" }).catalog = nested ∧
    (nested.addMetaNode { id := "x", name := "Z", directory := "d", path := "/a/b/" }).catalog =
      nested ∧
    ∃ e root k, nested.root.removeDeep "b" = some (e, root) ∧
      containerAt { nested with root } "/" = .ok k := by
  obtain ⟨hmove, hcategory, hnode, hmeta, hplan⟩ := refused_unchanged nested
  refine ⟨hmove "a" "/a/b" (.intoItself "a") rfl, hcategory _ [] ?_, hnode _ ?_, hmeta _ ?_,
    hplan "b" "" ⟨"/a", "/"⟩ rfl⟩
  · decide +kernel
  · decide +kernel
  · decide +kernel

end NodeCatalog.Catalog
