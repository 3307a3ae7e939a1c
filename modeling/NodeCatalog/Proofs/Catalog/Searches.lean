import NodeCatalog.Proofs.Catalog.Changes
import NodeCatalog.Proofs.Catalog.Lookup

/-!
# Deep searches choose one entry

An entry is found by its id, located by its id and removed by its id, in three recursions of their
own.  Ids may repeat, at different depths as well as among siblings, so each recursion has a choice.
In every tree they make the same one (`Container.searches_agree`): it is the first entry with the
id in `IsFirst`, so that one that stands deep inside an early sibling is chosen before a late
sibling.  Where one of them finds nothing, none does.
-/

namespace NodeCatalog

namespace Container

/-- The deep searches for an id come to one entry.  It stands at position `i` of `holder`, which has
the address `a`, and `path` is that of the container that is searched. -/
structure Chooses (k : Container) (id path : String) (a : List Nat) (i : Nat) (holder : Container)
    (e : Entry) : Prop where
  first : k.IsFirst id (a ++ [i]) e
  holds : k.at? a = some holder
  entry : holder.entries[i]? = some e
  found : k.lookup id true = some (.entry e)
  /-- The path that is told is joined from the ids of the categories around the entry, the outermost
  first. -/
  located : k.locate? id path = some ((k.idsAt a).foldl Path.join path)
  removed : k.removeDeep id = some (e, (Change.removeDeep id).apply k)
  /-- What is left is the tree as it was, but for the entry, which its holder has lost. -/
  left : Renewed { holder with entries := holder.entries.eraseIdx i } a k
    ((Change.removeDeep id).apply k)

/-- What the deep searches for an id have to do with one another, where `path` is that of the
container that is searched. -/
structure SearchesAgree (k : Container) (id path : String) : Prop where
  located_iff : (∃ e, k.lookup id true = some (.entry e)) ↔ (k.locate? id path).isSome
  removed_iff : (∃ e, k.lookup id true = some (.entry e)) ↔ (k.removeDeep id).isSome
  chosen (e : Entry) (h : k.lookup id true = some (.entry e)) :
    ∃ a i holder, k.Chooses id path a i holder e
  /-- Where nothing is found there is nothing to be found, and removing changes nothing. -/
  absent (h : k.lookup id true = none) :
    (∀ a e, k.entryAt? a = some e → e.id ≠ id) ∧ (Change.removeDeep id).apply k = k

variable {k : Container} {id : String}

theorem lookup_of_not_namesHere (h : Path.namesHere id = false) (k : Container) (deep : Bool) :
    k.lookup id deep = (k.find? id deep).map .entry := by
  rw [lookup, if_neg (Bool.not_eq_true _ ▸ h)]

theorem chooses_of_first {a : List Nat} {e : Entry} (hid : Path.namesHere id = false)
    (h : First id k.entries a e) (path : String) :
    ∃ b i holder, k.Chooses id path b i holder e := by
  have hfirst : k.IsFirst id a e := isFirst_iff.mpr h
  obtain ⟨b, i, holder, rfl, hb, hi⟩ := exists_of_entryAt? hfirst.entryAt
  have hremoved := removeDeep_of_isFirst hfirst
  have hleft : (Change.removeDeep id).apply k = k.eraseAt (b ++ [i]) := by
    rw [Change.apply, hremoved]
  refine ⟨b, i, holder, ?_⟩
  refine
    { first := hfirst
      holds := hb
      entry := hi
      found := ?found
      located := locate?_of_isFirst hfirst path
      removed := hleft ▸ hremoved
      left := ?left }
  case found => rw [lookup_of_not_namesHere hid, find?_of_isFirst hfirst, Option.map_some]
  case left =>
    rw [hleft, eraseAt_append (List.cons_ne_nil i [])]
    exact renewed_modifyAt hb (eraseAt [i])

/-- Whatever the tree, finding, locating and removing by an id choose the same entry.  Where it is
located says which categories are around it, and removing it changes nothing else. -/
theorem searches_agree (hid : Path.namesHere id = false) (k : Container) (path : String) :
    k.SearchesAgree id path := by
  rcases exists_first_or_absent id k.entries with ⟨a, e, hfirst⟩ | habsent
  · obtain ⟨b, i, holder, h⟩ := chooses_of_first hid hfirst path
    refine
      { located_iff := ?located
        removed_iff := ?removed
        chosen := ?chosen
        absent := fun hnone => absurd (h.found.symm.trans hnone) (Option.some_ne_none _) }
    case located => exact iff_of_true ⟨e, h.found⟩ (Option.isSome_of_eq_some h.located)
    case removed => exact iff_of_true ⟨e, h.found⟩ (Option.isSome_of_eq_some h.removed)
    case chosen =>
      intro x hx
      obtain rfl : e = x := Lookup.entry.inj (Option.some.inj (h.found.symm.trans hx))
      exact ⟨b, i, holder, h⟩
  · have hlocate : k.locate? id path = none := locateDeep_of_absent habsent path
    have hremove : k.removeDeep id = none := by rw [removeDeep, takeOutDeep_of_absent habsent]
    have hfind : k.lookup id true = none := by
      rw [lookup_of_not_namesHere hid, find?_eq_removeDeep, hremove, Option.map_none,
        Option.map_none]
    have hnone : ¬ ∃ e, k.lookup id true = some (.entry e) := by
      rintro ⟨e, he⟩
      exact Option.some_ne_none _ (he.symm.trans hfind)
    exact
      { located_iff := iff_of_false hnone (by rw [hlocate]; exact Bool.false_ne_true)
        removed_iff := iff_of_false hnone (by rw [hremove]; exact Bool.false_ne_true)
        chosen := fun e he => absurd ⟨e, he⟩ hnone
        absent := fun _ =>
          ⟨fun a e he => habsent e (mem_listed_of_entryAt? he), by rw [Change.apply, hremove]⟩ }

/-- An id that stands inside a category in the first category, and further on by itself and in
another category. -/
def repeated : Container :=
  { entries :=
      [.category { id := "a", name := "A" } true
          [.category { id := "b", name := "B" } false
            [.template (.node { id := "y", name := "Y", factory := "f" }),
              .template (.node { id := "x", name := "X", factory := "g" })]],
        .template (.node { id := "x", name := "Beside", factory := "h" }),
        .category { id := "c", name := "C" } true
          [.category { id := "x", name := "Category" } true []]] }

theorem searches_agree_repeated :
    Path.namesHere "x" = false ∧ repeated.SearchesAgree "x" "/top/" ∧
      repeated.locate? "x" "/top/" = some "/top/a/b" ∧
      ((Change.removeDeep "x").apply repeated).locate? "x" "/top/" = some "/top/" :=
  ⟨by decide, searches_agree (by decide) repeated "/top/", by decide, by decide⟩

end Container

end NodeCatalog
