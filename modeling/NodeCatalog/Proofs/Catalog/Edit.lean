import NodeCatalog.Catalog.Insert
import NodeCatalog.Proofs.Container.Trace

/-!
# What an edit does to any tree

An edit of the catalog is either refused, and then nothing changes, or it changes the container at
the address that the path leads to (`editAt_cases`).  So an insertion that does not add its entry
changes nothing (`insert_unchanged`).
-/

namespace NodeCatalog.Catalog

open Container

variable {α : Type} {cat : Catalog} {path : String}

/-- An edit changes the container at the address that its path leads to. -/
theorem editAt_of_trace {a : List Nat} {k : Container}
    (h : cat.root.trace (Path.segments path) = some a) (ha : cat.root.at? a = some k)
    (f : Container → α × Container) :
    cat.editAt path f =
      ⟨.ok (f k).1, { cat with root := cat.root.modifyAt (fun x => (f x).2) a }⟩ := by
  rw [editAt, edit_of_trace h ha]

theorem editAt_cases (cat : Catalog) (path : String) (f : Container → α × Container) :
    (∃ fault, cat.editAt path f = ⟨.error fault, cat⟩) ∨
      ∃ a k, cat.root.trace (Path.segments path) = some a ∧ cat.root.at? a = some k ∧
        cat.editAt path f =
          ⟨.ok (f k).1, { cat with root := cat.root.modifyAt (fun x => (f x).2) a }⟩ := by
  rcases hreach : cat.root.reach path (Path.segments path) with fault | k
  · refine Or.inl ⟨fault, ?_⟩
    rw [editAt, edit_eq_error_iff.mpr hreach]
  · obtain ⟨a, ha, hk⟩ := reach_eq_ok_iff.mp hreach
    exact Or.inr ⟨a, k, ha, hk, editAt_of_trace ha hk f⟩

/-- An insertion that does not add its entry changes nothing. -/
theorem insert_unchanged {e : Entry} (h : (cat.insert e).answer ≠ .ok true) :
    (cat.insert e).catalog = cat := by
  rcases editAt_cases cat e.path fun k => k.add e with ⟨fault, hedit⟩ | ⟨a, k, -, hk, hedit⟩
  · rw [insert, hedit]
  · rw [insert, hedit] at h ⊢
    rcases hclash : k.hasClash e with _ | _
    · rw [entries_add_of_not_hasClash hclash] at h
      exact absurd rfl h
    · have hsame : (k.add e).2 = id k := by
        rw [entries_add_of_hasClash hclash]
        rfl
      rw [modifyAt_congr hk hsame, modifyAt_id]

end NodeCatalog.Catalog
