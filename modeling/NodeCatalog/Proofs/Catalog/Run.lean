import NodeCatalog.Catalog.Insert
import NodeCatalog.Proofs.Catalog.Move
import NodeCatalog.Proofs.Container.Tidy

/-!
# Runs

A run is any sequence of operations on a catalog that is empty at first, whatever they answer.
Every operation keeps the tree tidy, with all containers sorting as the settings say
(`Operation.tidyFor_apply`), and so the trees that runs reach are tidy (`tidyFor_run`).  In words
that do not mention tidiness: siblings do not exclude each other, containers sort as the settings
say, and the path of an entry leads to the very container that holds it
(`run_siblings_flags_paths`).
-/

namespace NodeCatalog

open Container

/-- What can be done to a catalog.  A category is added without contents. -/
inductive Operation where
  | addCategory (c : Category)
  | addNode (t : NodeTemplate)
  | addMetaNode (t : MetaTemplate)
  | addNodeSet (set : NodeSet)
  | move (id path : String)

/-- The catalog after an operation, whatever it answers. -/
def Operation.apply (cat : Catalog) : Operation → Catalog
  | .addCategory c => (cat.addCategory c []).catalog
  | .addNode t => (cat.addNode t).catalog
  | .addMetaNode t => (cat.addMetaNode t).catalog
  | .addNodeSet set => (cat.addNodeSet set).catalog
  | .move id path => (cat.move id path).catalog

namespace Catalog

/-- The catalog after operations. -/
def run (cat : Catalog) (ops : List Operation) : Catalog :=
  ops.foldl Operation.apply cat

/-- The settings are the given ones and the tree is tidy, sorted as they say. -/
structure TidyFor (settings : Settings) (cat : Catalog) : Prop where
  settings_eq : cat.settings = settings
  tidy : Container.Tidy settings.sortChildren [] cat.root

variable {settings : Settings} {cat : Catalog}

theorem tidyFor_empty (settings : Settings) : (empty settings).TidyFor settings :=
  ⟨rfl, Tidy.empty settings.sortChildren []⟩

/-! ### Insertions -/

namespace TidyFor

theorem editAt {α : Type} {path : String} {f : Container → α × Container}
    (h : cat.TidyFor settings)
    (hf : ∀ k, Container.Tidy settings.sortChildren (Path.segments path) k →
      Container.Tidy settings.sortChildren (Path.segments path) (f k).2) :
    (cat.editAt path f).catalog.TidyFor settings := by
  rcases editAt_cases cat path f with ⟨fault, hedit⟩ | ⟨a, k, ha, hk, hedit⟩
  · rw [hedit]
    exact h
  · rw [hedit]
    have htidy := h.tidy.at? hk
    rw [idsAt_of_trace ha, List.nil_append] at htidy
    refine ⟨h.settings_eq, h.tidy.modifyAt hk ?_⟩
    rw [idsAt_of_trace ha]
    exact hf k htidy

theorem insert {e : Entry} (h : cat.TidyFor settings)
    (he : e.Fits settings.sortChildren (Path.segments e.path)) :
    (cat.insert e).catalog.TidyFor settings :=
  h.editAt fun _ hk => hk.add he

theorem addCategory (h : cat.TidyFor settings) (c : Category) :
    (cat.addCategory c []).catalog.TidyFor settings := by
  refine h.insert ?_
  rw [h.settings_eq]
  exact Entry.category_fits settings.sortChildren c

theorem addMember (h : cat.TidyFor settings) (set : NodeSet) (t : NodeTemplate) :
    (cat.addMember set t).catalog.TidyFor settings := by
  unfold Catalog.addMember
  split
  · exact h
  · rename_i added root hensure
    rw [h.settings_eq] at hensure
    have hsegs : ∀ s ∈ Path.segments t.path, Path.IsSegment s := fun _ hs =>
      Path.isSegment_of_mem_segments hs
    have hadd : ∀ k, Container.Tidy settings.sortChildren ([] ++ Path.segments t.path) k →
        Container.Tidy settings.sortChildren ([] ++ Path.segments t.path)
          (k.add (.template (.node t))).2 := by
      intro k hk
      rw [List.nil_append] at hk ⊢
      exact hk.add (Entry.template_fits _ (.node t))
    exact ⟨h.settings_eq,
      h.tidy.ensure hsegs Path.segments_root (fun _ _ => rfl) hadd hensure⟩

theorem addMembers (h : cat.TidyFor settings) (set : NodeSet) (ts : List NodeTemplate) :
    (cat.addMembers set ts).catalog.TidyFor settings := by
  induction ts generalizing cat with
  | nil => exact h
  | cons t ts ih =>
    have hfirst := h.addMember set t
    rw [Catalog.addMembers]
    rcases (cat.addMember set t).answer with fault | added
    · exact hfirst
    · exact ih hfirst

/-! ### Moves -/

theorem move (h : cat.TidyFor settings) (id path : String) :
    (cat.move id path).catalog.TidyFor settings := by
  rcases hplan : cat.planMove id path with fault | plan
  · rw [Catalog.move, hplan]
    exact h
  · obtain ⟨p, e, t, receiver, rest, he, -, -, -, ht, hrest, hmove⟩ := move_of_planMove hplan
    rw [hmove]
    -- what is left is tidy, the receiver in it is, and the relocated entry fits there
    have htidy := h.tidy.eraseAt p
    obtain ⟨a, i, holder, -, hholder, hi⟩ := exists_of_entryAt? he.entryAt
    have hfits := (h.tidy.at? hholder).fits (List.mem_of_getElem? hi)
    refine ⟨h.settings_eq, htidy.modifyAt hrest ?_⟩
    have hreceiver := htidy.at? hrest
    rw [idsAt_of_trace ht, List.nil_append] at hreceiver ⊢
    have := hfits.relocate (Path.normal path)
    rw [Path.segments_normal] at this
    exact hreceiver.add this

end TidyFor

end Catalog

open Catalog

variable {settings : Settings} {cat : Catalog}

/-! ### Runs -/

/-- Every operation keeps the tree tidy. -/
theorem Operation.tidyFor_apply (h : cat.TidyFor settings) (op : Operation) :
    (op.apply cat).TidyFor settings := by
  cases op with
  | addCategory c => exact h.addCategory c
  | addNode t => exact h.insert (Entry.template_fits _ (.node t))
  | addMetaNode t => exact h.insert (Entry.template_fits _ (.metaNode t))
  | addNodeSet set => exact h.addMembers set set.templates
  | move id path => exact h.move id path

namespace Catalog

theorem TidyFor.run (h : cat.TidyFor settings) (ops : List Operation) :
    (cat.run ops).TidyFor settings := by
  induction ops generalizing cat with
  | nil => exact h
  | cons op ops ih => exact ih (op.tidyFor_apply h)

/-- Runs reach tidy trees only. -/
theorem tidyFor_run (settings : Settings) (ops : List Operation) :
    ((empty settings).run ops).TidyFor settings :=
  (tidyFor_empty settings).run ops

/-- In what a run reaches, no two siblings exclude each other, all containers sort as the settings
say, and the path of every entry leads to the very container that holds it. -/
theorem run_siblings_flags_paths (settings : Settings) (ops : List Operation) (a : List Nat)
    (k : Container) (hk : ((empty settings).run ops).root.at? a = some k) :
    (k.entries.Pairwise fun x y => x.clashes y = false) ∧ k.sorted = settings.sortChildren ∧
      ∀ e ∈ k.entries, ((empty settings).run ops).containerAt e.path = .ok k ∧
        ((empty settings).run ops).root.trace (Path.segments e.path) = some a := by
  have htidy := (tidyFor_run settings ops).tidy
  have htidy' := htidy.at? hk
  refine ⟨?_, htidy'.flag, ?_⟩
  · have hdistinct := htidy'.distinct
    rw [keys, List.Nodup, List.pairwise_map] at hdistinct
    apply hdistinct.imp
    intro x y hne
    rw [← Bool.not_eq_true, Entry.clashes_iff]
    exact hne
  · intro e he
    -- the path of the entry has the ids along the address as segments
    have hplaced := (htidy'.fits he).placed
    rw [List.nil_append] at hplaced
    rw [containerAt, hplaced]
    have htrace := htidy.trace_idsAt hk
    exact ⟨reach_of_trace htrace hk e.path, htrace⟩

/-- A category in another one, with a node whose path is written loosely. -/
def nesting : List Operation :=
  [.addCategory { id := "a", name := "A" },
    .addCategory { id := "b", name := "B", path := " a " },
    .addNode { id := "x", name := "X", factory := "f", path := "//a/ b/" }]

theorem run_siblings_flags_paths_nesting :
    ∃ k e, ((empty {}).run (nesting ++ [.move "b" "/"])).root.at? [1] = some k ∧
      e ∈ k.entries ∧ e.path = "/b" ∧ k.sorted = true ∧
      ((empty {}).run (nesting ++ [.move "b" "/"])).containerAt e.path = .ok k := by
  have hk : ((empty {}).run (nesting ++ [.move "b" "/"])).root.at? [1] = some ⟨true,
      [.template (.node { id := "x", name := "X", factory := "f", path := "/b" })]⟩ := rfl
  obtain ⟨-, hflag, hpaths⟩ := run_siblings_flags_paths {} _ [1] _ hk
  have hx := hpaths _ (List.mem_singleton_self _)
  exact ⟨_, _, hk, List.mem_singleton_self _, rfl, hflag, hx.1⟩

end Catalog

end NodeCatalog
