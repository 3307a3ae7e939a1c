import NodeCatalog.Proofs.Assembly.Members
import NodeCatalog.Proofs.Catalog.Move
import NodeCatalog.Proofs.Container.Apart
import NodeCatalog.Proofs.Container.Issues

/-!
# Any changes at all

Besides the operations of the catalog, each container in it can be changed by hand: entries of any
form are added anywhere, beside others, and taken out.  Then paths no longer agree with places, but
siblings stay apart, as long as what is inserted is apart inside: each change of a container keeps
it apart (`Container.Apart.change`), and so does each change of the catalog
(`Change.apart_apply`).  So whatever is done, every query is answered (`answers_of_changes`).
-/

namespace NodeCatalog

open Container Catalog

/-! ### Changes of one container -/

/-- What can be done to a container. -/
inductive Container.Change where
  | add (e : Entry)
  | addAll (es : List Entry)
  | addBeside (side : Side) (e : Entry) (anchor : String)
  | remove (id : String)
  | removeDeep (id : String)
  | clear
  | setSorted (sorted : Bool)

namespace Container.Change

/-- The container after a change, whatever it answers. -/
def apply (k : Container) : Change → Container
  | add e => (k.add e).2
  | addAll es => k.addAll es
  | addBeside side e anchor => (k.addBeside side e anchor).2
  | remove id =>
    match k.remove id with
    | .error _ => k
    | .ok (_, left) => left
  | removeDeep id =>
    match k.removeDeep id with
    | none => k
    | some (_, left) => left
  | clear => k.clear
  | setSorted sorted => k.setSorted sorted

/-- What a change inserts is apart inside. -/
def Apart : Change → Prop
  | add e => e.Apart
  | addAll es => ∀ e ∈ es, e.Apart
  | addBeside _ e _ => e.Apart
  | remove _ | removeDeep _ | clear | setSorted _ => True

end Container.Change

namespace Container

/-- An entry is put among the others, which keep their order. -/
theorem perm_of_beside {side : Side} {e : Entry} {anchor : String} {es es' : List Entry}
    (h : beside side e anchor es = some es') : es'.Perm (e :: es) := by
  induction es generalizing es' with
  | nil => cases h
  | cons x xs ih =>
    unfold beside at h
    split at h
    · cases side with
      | before =>
        obtain rfl := Option.some.inj h
        exact .refl _
      | after =>
        obtain rfl := Option.some.inj h
        exact .swap e x xs
    · obtain ⟨ys, hys, rfl⟩ := Option.map_eq_some_iff.mp h
      exact ((ih hys).cons x).trans (.swap e x xs)

theorem sublist_of_takeOut {id : String} {es left : List Entry} {e : Entry}
    (h : takeOut id es = some (e, left)) : left.Sublist es := by
  induction es generalizing left with
  | nil => cases h
  | cons x xs ih =>
    rw [takeOut] at h
    split at h
    · obtain ⟨-, rfl⟩ := Prod.mk.inj (Option.some.inj h)
      exact List.sublist_cons_self x xs
    · obtain ⟨⟨x', left⟩, hleft, heq⟩ := Option.map_eq_some_iff.mp h
      obtain ⟨rfl, rfl⟩ := Prod.mk.inj heq
      exact (ih hleft).cons_cons x

/-- An entry that is removed, however deep it stands, is taken out at its address. -/
theorem exists_of_removeDeep {k left : Container} {id : String} {e : Entry}
    (h : k.removeDeep id = some (e, left)) : ∃ a, left = k.eraseAt a := by
  rcases exists_first_or_absent id k.entries with ⟨a, x, hfirst⟩ | habsent
  · rw [removeDeep_of_isFirst (isFirst_iff.mpr hfirst)] at h
    exact ⟨a, (Prod.mk.inj (Option.some.inj h)).2.symm⟩
  · rw [removeDeep, takeOutDeep_of_absent habsent] at h
    cases h

variable {k : Container} {e : Entry}

theorem Apart.add (h : k.Apart) (he : e.Apart) : (k.add e).2.Apart := by
  rcases hclash : k.hasClash e with _ | _
  · rw [entries_add_of_not_hasClash hclash]
    exact h.insert he hclash (List.perm_append_singleton e k.entries) k.sorted
  · rw [entries_add_of_hasClash hclash]
    exact h

theorem Apart.addAll (h : k.Apart) {es : List Entry} (hes : ∀ e ∈ es, e.Apart) :
    (k.addAll es).Apart := by
  induction es generalizing k with
  | nil => exact h
  | cons e es ih =>
    obtain ⟨he, hes⟩ := List.forall_mem_cons.mp hes
    exact ih (h.add he) hes

theorem Apart.addBeside (h : k.Apart) (he : e.Apart) (side : Side) (anchor : String) :
    (k.addBeside side e anchor).2.Apart := by
  unfold Container.addBeside
  split
  · exact h
  · rename_i hclash
    split
    · rename_i entries hentries
      exact h.insert he (Bool.not_eq_true _ ▸ hclash) (perm_of_beside hentries) k.sorted
    · exact h

/-- Every change keeps a container apart. -/
theorem Apart.change (h : k.Apart) {change : Change} (hchange : change.Apart) :
    (change.apply k).Apart := by
  cases change with
  | add e => exact h.add hchange
  | addAll es => exact h.addAll hchange
  | addBeside side e anchor => exact h.addBeside hchange side anchor
  | remove id =>
    cases hremove : takeOut id k.entries with
    | none => simpa only [Change.apply, Container.remove, hremove] using h
    | some p =>
      simpa only [Change.apply, Container.remove, hremove] using
        h.sublist (sublist_of_takeOut hremove) k.sorted
  | removeDeep id =>
    cases hremove : k.removeDeep id with
    | none => simpa only [Change.apply, hremove] using h
    | some p =>
      obtain ⟨a, ha⟩ := exists_of_removeDeep hremove
      simpa only [Change.apply, hremove, ha] using h.eraseAt a
  | clear => exact apart_nil k.sorted
  | setSorted sorted => exact h.sublist (.refl _) sorted

end Container

/-! ### Changes of the catalog -/

/-- What can be done to a catalog. -/
inductive Change where
  | addCategory (c : Category) (entries : List Entry)
  | addNode (t : NodeTemplate)
  | addMetaNode (t : MetaTemplate)
  | addNodeSet (set : NodeSet)
  | move (id path : String)
  /-- The container at a path is looked up, and from there category by category, each by its id,
  which need not be a segment; the container that is found is changed. -/
  | within (path : String) (ids : List String) (change : Container.Change)

namespace Change

/-- The catalog after a change, whatever it answers. -/
def apply (cat : Catalog) : Change → Catalog
  | addCategory c entries => (cat.addCategory c entries).catalog
  | addNode t => (cat.addNode t).catalog
  | addMetaNode t => (cat.addMetaNode t).catalog
  | addNodeSet set => (cat.addNodeSet set).catalog
  | move id path => (cat.move id path).catalog
  | within path ids change =>
    match cat.root.edit path (fun k => ((), change.apply k)) (Path.segments path ++ ids) with
    | .error _ => cat
    | .ok (_, root) => { cat with root }

/-- What a change inserts is apart inside. -/
def Apart : Change → Prop
  | addCategory _ entries => Container.Apart { entries }
  | within _ _ change => change.Apart
  | addNode _ | addMetaNode _ | addNodeSet _ | move _ _ => True

end Change

namespace Catalog

variable {cat : Catalog} {e : Entry}

/-- The catalog after changes. -/
def after (cat : Catalog) (changes : List Change) : Catalog :=
  changes.foldl Change.apply cat

theorem apart_insert (h : cat.root.Apart) (he : e.Apart) : (cat.insert e).catalog.root.Apart := by
  rcases insert_cases cat e with ⟨_, -, heq⟩ | ⟨a, k, -, hk, ⟨-, heq⟩ | ⟨hclash, heq⟩⟩
  · rw [heq]
    exact h
  · rw [heq]
    exact h
  · rw [heq]
    exact h.modifyAt hk ((h.at? hk).insert he hclash (List.perm_append_singleton e k.entries) _)

theorem Settled.apart {α : Type} {entry : α → Entry} {start now : Catalog} {placed : List α}
    {out : List (α × Skipped.Reason)} (h : Settled entry start now placed out)
    (hstart : start.root.Apart) (hentries : ∀ a, (entry a).Apart) : now.root.Apart := by
  induction h with
  | none => exact hstart
  | placed _ _ ih => exact apart_insert ih (hentries _)
  | duplicate _ _ ih => exact ih
  | refused _ _ ih => exact ih

theorem apart_addMember (h : cat.root.Apart) (set : NodeSet) (t : NodeTemplate) :
    (cat.addMember set t).catalog.root.Apart := by
  obtain ⟨made, mid, hsettled, -, -, heq⟩ := exists_addMember_eq cat set t
  rw [heq]
  exact apart_insert (hsettled.apart h fun c => Entry.apart_category_iff.mpr (apart_nil _))
    (Entry.apart_template _)

theorem apart_withMembers (h : cat.root.Apart) (members : List (NodeSet × NodeTemplate)) :
    (cat.withMembers members).root.Apart := by
  induction members generalizing cat with
  | nil => exact h
  | cons m members ih => exact ih (apart_addMember h m.1 m.2)

theorem apart_move (h : cat.root.Apart) (id path : String) :
    (cat.move id path).catalog.root.Apart := by
  rcases hplan : cat.planMove id path with fault | plan
  · rw [move, hplan]
    exact h
  · obtain ⟨p, e, t, receiver, rest, he, -, -, -, -, hrest, hmove⟩ := move_of_planMove hplan
    rw [hmove]
    -- the entry was held somewhere in the tree, and so it is apart inside
    obtain ⟨a, i, holder, -, hholder, hi⟩ := exists_of_entryAt? he.entryAt
    have hentry := (apart_iff.mp (h.at? hholder)).2 e (List.mem_of_getElem? hi)
    have hleft := h.eraseAt p
    exact hleft.modifyAt hrest ((hleft.at? hrest).add (hentry.relocate _))

end Catalog

/-- Every change keeps the tree apart. -/
theorem Change.apart_apply {cat : Catalog} (h : cat.root.Apart) {change : Change}
    (hchange : change.Apart) : (change.apply cat).root.Apart := by
  cases change with
  | addCategory c entries =>
    exact apart_insert h (Entry.apart_category_iff.mpr (hchange.sublist (.refl _) _))
  | addNode t => exact apart_insert h (Entry.apart_template _)
  | addMetaNode t => exact apart_insert h (Entry.apart_template _)
  | addNodeSet set =>
    obtain ⟨added, heq⟩ := addMembers_eq cat set set.templates
    rw [apply, Catalog.addNodeSet, heq]
    exact apart_withMembers h _
  | move id path => exact apart_move h id path
  | within path ids change =>
    rcases hreach : cat.root.reach path (Path.segments path ++ ids) with fault | k
    · simpa only [apply, edit_eq_error_iff.mpr hreach] using h
    · obtain ⟨a, ha, hk⟩ := reach_eq_ok_iff.mp hreach
      simpa only [apply, edit_of_trace ha hk] using
        h.modifyAt hk ((h.at? hk).change hchange)

namespace Catalog

theorem apart_after {cat : Catalog} (h : cat.root.Apart) {changes : List Change}
    (hchanges : ∀ change ∈ changes, change.Apart) : (cat.after changes).root.Apart := by
  induction changes generalizing cat with
  | nil => exact h
  | cons change changes ih =>
    obtain ⟨hfirst, hrest⟩ := List.forall_mem_cons.mp hchanges
    exact ih (change.apart_apply h hfirst) hrest

end Catalog

/-! ### Queries -/

/-- Every query of a container is answered. -/
structure Container.Answers (k : Container) : Prop where
  display : ∃ shown, k.display = .ok shown
  capture : ∃ s, Snapshot.capture k = .ok s
  issues : ∀ path, ∃ issues, k.issues path = (issues, none)
  problemCategories : ∃ categories, k.problemCategories = .ok categories
  countProblems : ∃ count, k.countProblems = .ok count
  findFactory : ∀ factory, ∃ t, k.findFactory factory = .ok t

theorem Container.Apart.answers {k : Container} (h : k.Apart) : k.Answers := by
  obtain ⟨shown, hshown⟩ := h.exists_display
  obtain ⟨s, hs⟩ := h.exists_capture
  have hall := display_of_capture hs
  refine
    { display := ⟨shown, hshown⟩
      capture := ⟨s, hs⟩
      issues := fun path => ⟨_, Issue.collect_of_display (hall path)⟩
      problemCategories := ?categories
      countProblems := ⟨_, by rw [countProblems, hshown]; rfl⟩
      findFactory := findFactory_of_capture hs }
  obtain ⟨found, hfound⟩ : ∃ found,
      ((k.containers Path.root).mapM fun p => p.2.ownProblemCategories) = .ok found := by
    refine exists_mapM_eq_ok fun p hp => ?_
    obtain ⟨out, hout⟩ := hall Path.root p hp
    exact ⟨_, by rw [ownProblemCategories, hout]; rfl⟩
  exact ⟨found.flatten, by rw [problemCategories, hfound]; rfl⟩

/-- Every query of a catalog is answered. -/
structure Catalog.Answers (cat : Catalog) : Prop where
  snapshot : ∃ s, cat.snapshot = .ok s
  issues : ∃ issues, cat.issues = .ok issues
  report : ∃ report, cat.report = .ok report
  containers : ∀ a k, cat.root.at? a = some k → k.Answers

theorem Catalog.answers_of_apart {cat : Catalog} (h : cat.root.Apart) : cat.Answers := by
  obtain ⟨issues, hissues⟩ := h.answers.issues Path.root
  have hcat : cat.issues = .ok issues := by rw [Catalog.issues, hissues]
  exact ⟨h.exists_capture, ⟨issues, hcat⟩, ⟨_, by rw [report, hcat]; rfl⟩,
    fun _ _ hk => (h.at? hk).answers⟩

/-- Whatever changes are made to an empty catalog, if what they insert is apart inside, then no two
siblings exclude each other, and every query is answered. -/
theorem Catalog.answers_of_changes (settings : Settings) (changes : List Change)
    (hchanges : ∀ change ∈ changes, change.Apart) :
    (∀ a k, ((empty settings).after changes).root.at? a = some k →
      k.entries.Pairwise fun x y => x.clashes y = false) ∧
    ((empty settings).after changes).Answers := by
  have h := @apart_after (empty settings) (apart_nil _) changes hchanges
  refine ⟨fun a k hk => ?_, answers_of_apart h⟩
  have hkeys := h a k hk
  rw [keys, List.Nodup, List.pairwise_map] at hkeys
  refine hkeys.imp fun hne => ?_
  rw [← Bool.not_eq_true, Entry.clashes_iff]
  exact hne

/-- A branch with a category whose id is no segment, an entry put into this one and one put beside
it, the whole moved and shown in insertion order. -/
def Change.byHand : List Change :=
  [.addCategory { id := "a", name := "A" }
      [.category { id := "b/c", name := "B" } true [], .template (.node
        { id := "b/c", name := "B", factory := "f" })],
    .within "/a" ["b/c"] (.add (.template (.node { id := "x", name := "X", factory := "f" }))),
    .within "a" [] (.addBeside .before (.template (.node
      { id := "y", name := "Y", after := "z", factory := "g" })) "b/c"),
    .addCategory { id := "t", name := "T" } [],
    .move "b/c" "/t",
    .within "" ["a"] (.setSorted false)]

theorem Catalog.answers_of_changes_byHand :
    (∀ change ∈ Change.byHand, change.Apart) ∧ ((empty {}).after Change.byHand).Answers ∧
      ∃ k, ((empty {}).after Change.byHand).root.at? [1, 0] = some k ∧ k.Answers := by
  have hchanges : ∀ change ∈ Change.byHand, change.Apart := by
    simp only [Change.byHand, List.forall_mem_cons]
    refine ⟨apart_iff.mpr ⟨by decide, ?entries⟩, Entry.apart_template _, Entry.apart_template _,
      apart_nil _, trivial, trivial, nofun⟩
    simp only [List.forall_mem_cons]
    exact ⟨Entry.apart_category_iff.mpr (apart_nil _), Entry.apart_template _, nofun⟩
  obtain ⟨-, h⟩ := answers_of_changes {} Change.byHand hchanges
  exact ⟨hchanges, h, _, rfl, h.containers [1, 0] _ rfl⟩

end NodeCatalog
