import NodeCatalog.Proofs.Container.Location
import NodeCatalog.Proofs.Snapshot.Determined

/-!
# A tidy tree holds what it lists

A tidy tree can be told from the list of its entries, each without what it holds
(`Catalog.TidyFor.holds_listed`).  So tidy trees that list the same entries, in any order, have the
same snapshot if their containers sort (`Catalog.TidyFor.exists_snapshot`).  The paths of the entries
need not have the same texts (`Catalog.TidyFor.exists_snapshot_of_relocated`).
-/

namespace NodeCatalog

open Container

namespace Catalog

variable {settings : Settings} {cat cat' : Catalog}

/-- No two entries of a tidy tree have one path and one key. -/
theorem TidyFor.nodup_listed (h : cat.TidyFor settings) :
    ((Entry.listed cat.root.entries).map fun z => (Path.segments z.path, z.key)).Nodup := by
  rw [List.nodup_iff_count_le_one]
  rintro ⟨ids, key⟩
  by_cases hmem : (ids, key) ∈
      (Entry.listed cat.root.entries).map fun z => (Path.segments z.path, z.key)
  · obtain ⟨z, hz, heq⟩ := List.mem_map.mp hmem
    obtain ⟨a, k, ha, hk, -⟩ := h.tidy.exists_trace_of_mem_listed hz
    have hids : cat.root.idsAt a = ids := (idsAt_of_trace ha).trans (Prod.mk.inj heq).1
    -- the entries with this path are those of one container
    have hentries := h.tidy.filter_listed hk
    rw [List.nil_append, hids] at hentries
    have hcount : k.keys.count key ≤ 1 :=
      List.nodup_iff_count_le_one.mp (h.tidy.at? hk).distinct key
    rw [keys, ← hentries, List.count_eq_countP, List.countP_map, List.countP_filter] at hcount
    rw [List.count_eq_countP, List.countP_map]
    refine Nat.le_trans (List.countP_mono_left fun x _ hx => ?_) hcount
    obtain ⟨hpath, hkey⟩ := Prod.mk.inj (beq_iff_eq.mp hx)
    rw [Function.comp_apply, hkey, beq_self_eq_true, Bool.true_and]
    exact decide_eq_true hpath
  · rw [List.count_eq_zero.mpr hmem]
    exact Nat.zero_le 1

/-- A tidy tree holds just the entries that it lists. -/
theorem TidyFor.holds_listed (h : cat.TidyFor settings) :
    cat.Holds settings ((Entry.listed cat.root.entries).map Entry.bare) where
  tidyFor := h
  rows := by
    intro a k hk
    have hentries := h.tidy.filter_listed hk
    rw [List.nil_append] at hentries
    rw [List.filter_map, row, ← hentries]
    simp only [Function.comp_def, Entry.path_bare]
  present := by
    intro e he
    obtain ⟨z, hz, rfl⟩ := List.mem_map.mp he
    obtain ⟨a, -, ha, -⟩ := h.tidy.exists_trace_of_mem_listed hz
    exact ⟨a, by rw [Entry.path_bare, ha]⟩
  distinct := by
    simpa only [List.map_map, Function.comp_def, Entry.path_bare, Entry.key_bare]
      using h.nodup_listed

/-- Tidy trees have the same snapshot if one lists the entries of the other below paths of the same
segments. -/
theorem TidyFor.exists_snapshot_of_relocated (h : cat.TidyFor settings)
    (h' : cat'.TidyFor settings) (hsorted : settings.sortChildren = true) {place : Entry → String}
    (hperm : ((Entry.listed cat'.root.entries).map Entry.bare).Perm
      ((Entry.listed cat.root.entries).map fun e => e.bare.relocate (place e)))
    (hplace : ∀ e ∈ Entry.listed cat.root.entries,
      Path.segments (place e) = Path.segments e.path) :
    ∃ s, cat.snapshot = .ok s ∧ cat'.snapshot = .ok s := by
  have hsight : ((Entry.listed cat.root.entries).map fun e => e.bare.relocate (place e)).map
      Entry.sight = ((Entry.listed cat.root.entries).map Entry.bare).map Entry.sight := by
    rw [List.map_map, List.map_map]
    refine List.map_congr_left fun e he => Prod.ext ?_ ?_
    · rw [Function.comp_apply, Entry.sight, Entry.path_relocate, hplace e he, Function.comp_apply,
        Entry.sight, Entry.path_bare]
    · rcases e with _ | _ | _ <;> rfl
  refine exists_snapshot_of_sights h.holds_listed h'.holds_listed hsorted ?_
  rw [← hsight]
  exact (hperm.map Entry.sight).symm

/-- Tidy trees that list the same entries have the same snapshot. -/
theorem TidyFor.exists_snapshot (h : cat.TidyFor settings) (h' : cat'.TidyFor settings)
    (hsorted : settings.sortChildren = true)
    (hperm : ((Entry.listed cat.root.entries).map Entry.bare).Perm
      ((Entry.listed cat'.root.entries).map Entry.bare)) :
    ∃ s, cat.snapshot = .ok s ∧ cat'.snapshot = .ok s :=
  exists_snapshot_of_holds h.holds_listed h'.holds_listed hsorted (hperm.map Entry.spot)

end Catalog

end NodeCatalog
