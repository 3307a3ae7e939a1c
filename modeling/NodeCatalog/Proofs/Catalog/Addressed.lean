import NodeCatalog.Proofs.Assembly.Members
import NodeCatalog.Proofs.Catalog.Run

/-!
# The address of a category that is added

A category that is added stands at the end of the container that its path leads to.  Its full path
goes on from there by its id, and so leads to what the category holds exactly if its id is one
segment (`fullPath_of_addCategory`).  Any other id is accepted as well, but read as a path it does
not name the category: a slash parts it into several segments, white space around it does not count,
and a blank id names no segment at all (`fullPath_astray`).
-/

namespace NodeCatalog.Catalog

open Container

/-- An address that segments and then an id lead to has these ids along it, so that a path which
goes on by a text leads there only if the text is the id. -/
theorem eq_of_trace_append {k : Container} {ids segments : List String} {id : String} {a : List Nat}
    (h : k.trace (ids ++ [id]) = some a) (h' : k.trace (ids ++ segments) = some a) :
    segments = [id] :=
  List.append_cancel_left ((idsAt_of_trace h').symm.trans (idsAt_of_trace h))

/-- A category that is added stands where nothing stood, in the container that its path leads to,
and holds what it came with.  Its full path leads to it exactly if its id is one segment. -/
theorem fullPath_of_addCategory (cat : Catalog) (c : Category) (entries : List Entry)
    (h : (cat.addCategory c entries).answer = .ok true) :
    ∃ a i now, (cat.addCategory c entries).catalog = now ∧
      cat.root.trace (Path.segments c.path) = some a ∧ cat.root.entryAt? (a ++ [i]) = none ∧
      now.root.entryAt? (a ++ [i]) = some (.category c cat.settings.sortChildren entries) ∧
      (now.root.trace (Path.segments c.fullPath) = some (a ++ [i]) ↔ Path.IsSegment c.id) ∧
      (Path.IsSegment c.id →
        now.containerAt c.fullPath = .ok ⟨cat.settings.sortChildren, entries⟩) := by
  let e : Entry := .category c cat.settings.sortChildren entries
  obtain ⟨a, k, ha, hk, hclash, hnow⟩ := exists_of_insert_eq_true h
  have hcontainer : (cat.root.modifyAt (append e) a).at? a = some (k.append e) := by
    rw [at?_modifyAt, hk, Option.map_some]
  have hentry : (cat.root.modifyAt (append e) a).entryAt? (a ++ [k.entries.length]) = some e := by
    rw [entryAt?_concat, hcontainer, Option.bind_some, append, List.getElem?_concat_length]
  -- the id leads to the category, whatever text it is
  have htrace : (cat.root.modifyAt (append e) a).trace (Path.segments c.path ++ [c.id]) =
      some (a ++ [k.entries.length]) := trace_modifyAt_append_category ha hk rfl hclash
  have hinner : (cat.root.modifyAt (append e) a).at? (a ++ [k.entries.length]) =
      some ⟨cat.settings.sortChildren, entries⟩ := by
    rw [at?_append, hcontainer, Option.bind_some, at?, inner?_append_length]
    rfl
  refine ⟨a, k.entries.length, _, hnow, ha, ?vacant, hentry, ?leads, ?reached⟩
  case vacant =>
    rw [entryAt?_concat, hk, Option.bind_some, List.getElem?_eq_none (le_refl _)]
  case leads =>
    rw [Category.fullPath, Path.segments_join]
    refine ⟨fun hpath => eq_of_trace_append htrace hpath, fun hid => ?_⟩
    rw [hid]
    exact htrace
  case reached =>
    intro hid
    refine reach_of_trace ?_ hinner c.fullPath
    rw [Category.fullPath, Path.segments_join, hid]
    exact htrace

/-- A category below a path that is written loosely. -/
def loose : Category :=
  { id := "c", name := "C", path := " a/b/" }

theorem fullPath_of_addCategory_loose :
    (((empty {}).run nesting).addCategory loose []).answer = .ok true ∧
      Path.IsSegment loose.id ∧
      (((empty {}).run nesting).addCategory loose []).catalog.containerAt " a/b/c" =
        .ok ⟨true, []⟩ := by
  have hanswer : (((empty {}).run nesting).addCategory loose []).answer = .ok true := rfl
  have hid : Path.IsSegment loose.id := by decide +kernel
  obtain ⟨a, i, now, rfl, -, -, -, -, hreached⟩ := fullPath_of_addCategory _ loose [] hanswer
  exact ⟨hanswer, hid, hreached hid⟩

/-- A category whose id is two segments. -/
def slashed : Category :=
  { id := "a/b", name := "B" }

/-- A category whose id is a segment with a blank before it. -/
def padded : Category :=
  { id := " a", name := "A" }

/-- Categories are added whose full paths lead nowhere, or to what another category holds. -/
theorem fullPath_astray :
    (((empty {}).addCategory slashed []).answer = .ok true ∧
      ((empty {}).addCategory slashed []).catalog.containerAt slashed.fullPath =
        .error (.segmentNotFound "a" "/a/b")) ∧
    (((empty {}).run nesting).addCategory padded []).answer = .ok true ∧
      ∃ k, (((empty {}).run nesting).addCategory padded []).catalog.containerAt padded.fullPath =
          .ok k ∧
        ((empty {}).run nesting).containerAt "/a" = .ok k ∧ k.entries ≠ [] :=
  ⟨⟨rfl, rfl⟩, rfl, _, rfl, rfl, nofun⟩

end NodeCatalog.Catalog
