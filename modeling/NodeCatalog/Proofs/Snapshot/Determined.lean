import NodeCatalog.Proofs.Assembly.Contents
import NodeCatalog.Proofs.Container.Apart
import NodeCatalog.Proofs.Container.Shuffled

/-!
# What a snapshot depends on

A tree that holds just some items can be told from the list of these (`Catalog.Holds`).  Its
snapshot does not depend on their order if all containers sort, and of an item it does not depend on
the text of the path, nor on the plugin, the icon and the description of a category
(`Entry.outline`).  So two trees have the same snapshot if they hold the same items in this sense
(`exists_snapshot_of_sights`): by induction over the first tree, containers that the same ids lead
to show the same.
-/

namespace NodeCatalog

open Container Snapshot

/-! ### What is seen of an entry -/

/-- What a snapshot tells of a declared category. -/
def Category.plain (c : Category) : Category :=
  { id := c.id, name := c.name, after := c.after }

namespace Entry

/-- An entry with a category reduced to what a snapshot tells of it. -/
def plain : Entry → Entry
  | category c sorted entries => category c.plain sorted entries
  | template t => template t

/-- Where an entry is declared, and the entry with a category reduced. -/
def spot (e : Entry) : List String × Entry :=
  (Path.segments e.path, e.plain)

/-- An entry reduced to what a snapshot tells of it, where the path of a template does not matter
either. -/
def outline : Entry → Entry
  | category c sorted entries => category c.plain sorted entries
  | template t => template (t.withPath Path.root)

/-- Where an entry is declared, and what a snapshot tells of it. -/
def sight (e : Entry) : List String × Entry :=
  (Path.segments e.path, e.outline)

@[simp] theorem key_plain (e : Entry) : e.plain.key = e.key := by
  cases e <;> rfl

theorem outline_plain (e : Entry) : e.plain.outline = e.outline := by
  cases e <;> rfl

theorem bare_outline (e : Entry) : e.outline.bare = e.bare.outline := by
  cases e <;> rfl

theorem view_comap_outline : view.comap outline = view := by
  have hid : ∀ e : Entry, e.outline.id = e.id := by rintro (_ | _ | _) <;> rfl
  have hname : ∀ e : Entry, e.outline.name = e.name := by rintro (_ | _ | _) <;> rfl
  have hafter : ∀ e : Entry, e.outline.after = e.after := by rintro (_ | _ | _) <;> rfl
  have hkind : ∀ e : Entry, e.outline.kind = e.kind := by rintro (_ | _) <;> rfl
  simp only [After.View.comap, view, After.View.byName, hid, hname, hafter, hkind]
  rfl

end Entry

/-! ### What nodes depend on -/

namespace Snapshot

/-- Nodes are the same if entries are reduced. -/
theorem shownNodes_outline (sorted : Bool) (things : List (Entry × Except Fault (List Node))) :
    shownNodes sorted (things.map fun p => (p.1.outline, p.2)) = shownNodes sorted things := by
  have harrange : ∀ things : List (Entry × Except Fault (List Node)),
      arrange (fun p => p.1.outline) sorted things = arrange Prod.fst sorted things := by
    intro things
    have hview : Entry.view.comap (fun p : Entry × Except Fault (List Node) => p.1.outline) =
        Entry.view.comap Prod.fst := congrArg (After.View.comap Prod.fst) Entry.view_comap_outline
    unfold arrange
    rw [hview]
  have hclashes : ∀ a b : Entry, a.outline.clashes b.outline = a.clashes b := by
    rintro (_ | _ | _) (_ | _ | _) <;> rfl
  have hnode : ∀ (e : Entry) problem children,
      Node.ofEntry e.outline problem children = Node.ofEntry e problem children := by
    rintro (_ | _ | _) <;> exact fun _ _ => rfl
  unfold shownNodes
  rw [arrange_map, harrange]
  rcases arrange Prod.fst sorted things with fault | shown
  · rfl
  · show List.mapM _ (shown.items.map _) = List.mapM _ shown.items
    rw [List.mapM_map]
    simp only [After.Ordered.map, List.any_map, Function.comp_def, hclashes, hnode]

/-- The nodes of things that sort depend on what is seen of these, in any order, where entries are
reduced. -/
theorem toOption_shownNodes_of_perm_outline
    {things things' : List (Entry × Except Fault (List Node))}
    (h : (things.map fun p => (p.1.bare.outline, p.2.toOption)).Perm
      (things'.map fun p => (p.1.bare.outline, p.2.toOption))) :
    (shownNodes true things).toOption = (shownNodes true things').toOption := by
  rw [← shownNodes_outline, ← shownNodes_outline true things']
  refine toOption_shownNodes_of_perm ?_
  simpa only [List.map_map, Function.comp_def, Entry.seen, Entry.bare_outline] using h

end Snapshot

/-! ### Trees with the same items -/

/-- If lists agree in one respect up to their order, they agree in all that depends on it. -/
theorem perm_map_of_perm_map {α β γ : Type} {f : α → β} {g : α → γ} {as as' : List α}
    (h : (as.map f).Perm (as'.map f)) (hg : ∀ a ∈ as, ∀ a' ∈ as', f a = f a' → g a = g a') :
    (as.map g).Perm (as'.map g) := by
  induction as generalizing as' with
  | nil =>
    obtain rfl := List.map_eq_nil_iff.mp (List.nil_perm.mp h)
    exact .nil
  | cons a as ih =>
    obtain ⟨a', ha', heq⟩ := List.mem_map.mp (h.subset List.mem_cons_self)
    obtain ⟨front, back, rfl⟩ := List.append_of_mem ha'
    have hrest : (as.map f).Perm ((front ++ back).map f) := by
      have hmiddle := h.trans (List.perm_middle.map f)
      rw [List.map_cons, List.map_cons, heq] at hmiddle
      exact hmiddle.cons_inv
    have hmap := ih hrest fun b hb b' hb' => hg b (List.mem_cons_of_mem _ hb) b' <|
      List.perm_middle.mem_iff.mpr (List.mem_cons_of_mem _ hb')
    rw [List.map_cons, hg a List.mem_cons_self a' ha' heq.symm]
    exact (hmap.cons (g a')).trans (List.perm_middle.map g).symm

/-- To what a category in a container holds the ids lead that go on with its own. -/
theorem Container.exists_idsAt_concat {root k inner : Container} {a : List Nat} {e : Entry}
    (hk : root.at? a = some k) (he : e ∈ k.entries) (hinner : e.container? = some inner) :
    ∃ i, root.at? (a ++ [i]) = some inner ∧
      root.idsAt (a ++ [i]) = root.idsAt a ++ [e.id] := by
  obtain ⟨i, hi⟩ := List.mem_iff_getElem?.mp he
  have hids : k.idsAt [i] = [e.id] := by
    obtain ⟨c, rfl⟩ := Entry.container?_eq_some_iff.mp hinner
    rw [idsAt, hi]
    rfl
  refine ⟨i, ?_, by rw [idsAt_append hk, hids]⟩
  rw [at?_append, hk, Option.bind_some, at?, inner?, hi, Option.bind_some, hinner]
  rfl

namespace Catalog

variable {settings : Settings} {items items' : List Entry} {cat cat' : Catalog}

/-- What is seen of the row of a container is what is seen of the items that are declared there. -/
theorem Holds.map_outline_row (h : cat.Holds settings items) {a : List Nat} {k : Container}
    (hk : cat.root.at? a = some k) : k.row.map Entry.outline =
      ((items.map Entry.sight).filter fun p => p.1 = cat.root.idsAt a).map Prod.snd := by
  rw [h.rows a k hk, List.filter_map, List.map_map]
  rfl

/-- Where the same ids lead, the nodes are the same. -/
theorem Holds.toOption_nodes (h : cat.Holds settings items) (h' : cat'.Holds settings items')
    (hsorted : settings.sortChildren = true)
    (hperm : (items.map Entry.sight).Perm (items'.map Entry.sight)) (k : Container) :
    ∀ a a' k', cat.root.at? a = some k → cat'.root.at? a' = some k' →
      cat.root.idsAt a = cat'.root.idsAt a' →
        (shownNodes k.sorted (nodesEach k.entries)).toOption =
          (shownNodes k'.sorted (nodesEach k'.entries)).toOption := by
  induction k using Container.induction with
  | step k ih =>
    intro a a' k' hk hk' hids
    rw [(h.tidyFor.tidy.at? hk).flag, (h'.tidyFor.tidy.at? hk').flag, hsorted]
    apply toOption_shownNodes_of_perm_outline
    rw [nodesEach_eq_map, nodesEach_eq_map, List.map_map, List.map_map]
    have hrows : (k.entries.map fun e => e.bare.outline).Perm
        (k'.entries.map fun e => e.bare.outline) := by
      have hboth := ((hperm.filter fun p => p.1 = cat.root.idsAt a).map Prod.snd)
      rw [← h.map_outline_row hk, hids, ← h'.map_outline_row hk', row, row, List.map_map,
        List.map_map] at hboth
      exact hboth
    refine perm_map_of_perm_map hrows fun e he e' he' heq => ?_
    refine Prod.ext heq ?_
    cases e with
    | template t =>
      cases e' with
      | category c' sorted' entries' => cases heq
      | template t' => rfl
    | category c sorted entries =>
      cases e' with
      | template t' => cases heq
      | category c' sorted' entries' =>
        -- what both hold is held where the same ids lead
        obtain ⟨i, hi, hidsi⟩ := exists_idsAt_concat hk he rfl
        obtain ⟨j, hj, hidsj⟩ := exists_idsAt_concat hk' he' rfl
        refine ih _ he _ rfl _ _ _ hi hj ?_
        have hid : c.id = c'.id := congrArg Entry.id heq
        rw [hidsi, hidsj, hids]
        exact congrArg (fun id => cat'.root.idsAt a' ++ [id]) hid

/-- Trees that hold the same items, as far as a snapshot tells, have the same snapshot. -/
theorem exists_snapshot_of_sights (h : cat.Holds settings items) (h' : cat'.Holds settings items')
    (hsorted : settings.sortChildren = true)
    (hperm : (items.map Entry.sight).Perm (items'.map Entry.sight)) :
    ∃ s, cat.snapshot = .ok s ∧ cat'.snapshot = .ok s := by
  have hapart : cat.root.Apart := fun a k hk => (h.tidyFor.tidy.at? hk).distinct
  have hnodes := h.toOption_nodes h' hsorted hperm cat.root [] [] cat'.root rfl rfl rfl
  have hcapture : (capture cat.root).toOption = (capture cat'.root).toOption := by
    unfold capture
    rcases toOption_eq_iff.mp hnodes with ⟨_, _, heq, heq'⟩ | ⟨_, heq, heq'⟩
    · rw [heq, heq']
      rfl
    · rw [heq, heq']
  obtain ⟨s, hs⟩ := hapart.exists_capture
  rcases toOption_eq_iff.mp hcapture with ⟨_, _, hfault, -⟩ | hsame
  · cases hs.symm.trans hfault
  · exact hsame

/-- Trees that hold the same items, up to what no snapshot tells of a category, have the same
snapshot. -/
theorem exists_snapshot_of_holds (h : cat.Holds settings items) (h' : cat'.Holds settings items')
    (hsorted : settings.sortChildren = true)
    (hperm : (items.map Entry.spot).Perm (items'.map Entry.spot)) :
    ∃ s, cat.snapshot = .ok s ∧ cat'.snapshot = .ok s := by
  have hsight : ∀ es : List Entry, es.map Entry.sight =
      (es.map Entry.spot).map fun p => (p.1, p.2.outline) := by
    intro es
    rw [List.map_map]
    exact List.map_congr_left fun e _ => Prod.ext rfl e.outline_plain.symm
  refine exists_snapshot_of_sights h h' hsorted ?_
  rw [hsight, hsight]
  exact hperm.map _

end Catalog

end NodeCatalog
