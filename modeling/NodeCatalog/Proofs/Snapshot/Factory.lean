import NodeCatalog.Proofs.Container.First
import NodeCatalog.Proofs.Snapshot.Faithful

/-!
# Searching for a factory

A search for a factory goes through the tree as it is shown, and stops at the first hit, while a
snapshot shows all of the tree.  Both go along one list: the entries of the tree from top to bottom,
each container in the order in which it is shown (`Container.topDown`).  The nodes of a snapshot
show the entries of this list one by one (`Snapshot.forall₂_shows_topDown`), and the search answers
the first of them that is a node template with the factory (`Container.findFactory_eq`).  So the
search may be made in the snapshot instead (`Snapshot.findsFirst_of_capture`).
-/

namespace NodeCatalog

open Container Snapshot

/-! ### From top to bottom -/

/-- What comes along with entries, in the order in which these are shown; nothing if they cannot be
shown. -/
def Container.inOrder (sorted : Bool) (things : List (Entry × List Entry)) : List Entry :=
  match arrange Prod.fst sorted things with
  | .error _ => []
  | .ok shown => shown.items.flatMap Prod.snd

namespace Entry

mutual

/-- An entry and all it holds as it is shown, an entry before those it holds. -/
def topDown : Entry → List Entry
  | category c sorted entries =>
    category c sorted entries :: inOrder sorted (topDownEach entries)
  | template t => [template t]

/-- Each entry with itself and all it holds. -/
def topDownEach : List Entry → List (Entry × List Entry)
  | [] => []
  | e :: es => (e, e.topDown) :: topDownEach es

end

theorem topDownEach_eq_map (es : List Entry) :
    topDownEach es = es.map fun e => (e, e.topDown) := by
  induction es with
  | nil => rfl
  | cons e es ih => rw [topDownEach, ih, List.map_cons]

/-- The node template that an entry is, if it creates its nodes by the factory. -/
def madeBy (factory : String) : Entry → Option NodeTemplate
  | template (.node t) => if t.factory = factory then some t else none
  | _ => none

theorem madeBy_eq_some_iff {factory : String} {e : Entry} {t : NodeTemplate} :
    e.madeBy factory = some t ↔ e = template (.node t) ∧ t.factory = factory := by
  rcases e with _ | ⟨t' | t'⟩
  · simp [madeBy]
  · rw [madeBy, Option.ite_none_right_eq_some, Option.some.injEq, template.injEq,
      Template.node.injEq]
    constructor
    · rintro ⟨h, rfl⟩
      exact ⟨rfl, h⟩
    · rintro ⟨rfl, h⟩
      exact ⟨h, rfl⟩
  · simp [madeBy]

end Entry

namespace Container

/-- The entries of a tree as it is shown, from top to bottom. -/
def topDown (k : Container) : List Entry :=
  inOrder k.sorted (Entry.topDownEach k.entries)

variable {k : Container} {shown : After.Ordered Entry}

theorem topDown_of_display (h : k.display = .ok shown) :
    k.topDown = shown.items.flatMap Entry.topDown := by
  rw [topDown, inOrder, Entry.topDownEach_eq_map, arrange_of_display h]
  exact List.flatMap_map ..

/-- A category comes before what it holds. -/
theorem topDown_of_container? {e : Entry} {inner : Container} (h : e.container? = some inner) :
    e.topDown = e :: inner.topDown := by
  obtain ⟨c, rfl⟩ := Entry.container?_eq_some_iff.mp h
  rw [Entry.topDown, topDown]

/-- Where the tree can be shown, all its entries are. -/
theorem topDown_perm (k : Container)
    (h : ∃ nodes, shownNodes k.sorted (nodesEach k.entries) = .ok nodes) :
    k.topDown.Perm (Entry.listed k.entries) := by
  induction k using Container.induction with
  | step k ih =>
    obtain ⟨nodes, h⟩ := h
    obtain ⟨⟨shown, hdisplay⟩, hinner⟩ := exists_of_shownNodes h
    have heach : ∀ e ∈ k.entries, e.topDown.Perm (Entry.listed [e]) := by
      intro e he
      cases e with
      | category c sorted entries =>
        have hwithin := ih _ he ⟨sorted, entries⟩ rfl (hinner _ he)
        rw [topDown_of_container? rfl, Entry.listed_category, Entry.listed_nil, List.append_nil]
        exact hwithin.cons _
      | template t => exact .refl _
    rw [topDown_of_display hdisplay, Entry.listed_eq_flatMap]
    exact ((perm_of_arrange hdisplay).flatMap_right _).trans (.flatMap_left _ heach)

/-! ### What the search answers -/

theorem findFactory_of_display {factory : String} (h : k.display = .ok shown) :
    k.findFactory factory = firstFound (shown.items.map (findFactoryWithin factory)) := by
  rw [findFactory, firstShown, findFactoryEach_eq_map, arrange_of_display h]
  exact congrArg firstFound List.map_map

theorem firstFound_topDown {factory : String} {es : List Entry} (h : ∀ e ∈ es,
      findFactoryWithin factory e = .ok (e.topDown.findSome? (Entry.madeBy factory))) :
    firstFound (es.map (findFactoryWithin factory)) =
      .ok ((es.flatMap Entry.topDown).findSome? (Entry.madeBy factory)) := by
  induction es with
  | nil => rfl
  | cons e es ih =>
    obtain ⟨he, hes⟩ := List.forall_mem_cons.mp h
    rw [List.map_cons, he, List.flatMap_cons, List.findSome?_append]
    rcases e.topDown.findSome? (Entry.madeBy factory) with _ | t
    · exact ih hes
    · rfl

/-- The search answers the first hit among the entries from top to bottom. -/
theorem findFactory_eq (factory : String) (k : Container)
    (h : ∃ nodes, shownNodes k.sorted (nodesEach k.entries) = .ok nodes) :
    k.findFactory factory = .ok (k.topDown.findSome? (Entry.madeBy factory)) := by
  induction k using Container.induction with
  | step k ih =>
    obtain ⟨nodes, h⟩ := h
    obtain ⟨⟨shown, hdisplay⟩, hinner⟩ := exists_of_shownNodes h
    rw [findFactory_of_display hdisplay, topDown_of_display hdisplay]
    refine firstFound_topDown fun e he => ?_
    have hmem := (perm_of_arrange hdisplay).mem_iff.mp he
    rcases e with ⟨c, sorted, entries⟩ | ⟨t | t⟩
    · have hwithin := ih _ hmem ⟨sorted, entries⟩ rfl (hinner _ hmem)
      rw [topDown_of_container? rfl, List.findSome?_cons]
      exact hwithin
    · rw [findFactoryWithin, Entry.topDown, List.findSome?_singleton, Entry.madeBy]
    · rfl

end Container

namespace Snapshot

/-! ### What the nodes show -/

/-- All nodes of a snapshot, from top to bottom. -/
def nodes (s : Snapshot) : List Node :=
  (Node.walkAll 0 s.children).map Prod.snd

theorem forall₂_shows_walkAll (k : Container) (nodes : List Node)
    (h : shownNodes k.sorted (nodesEach k.entries) = .ok nodes) (depth : Nat) :
    List.Forall₂ (fun n e => Node.Shows n e) ((Node.walkAll depth nodes).map Prod.snd)
      k.topDown := by
  induction k using Container.induction generalizing nodes depth with
  | step k ih =>
    obtain ⟨shown, hdisplay, hnodes⟩ := forall₂_shows_of_shownNodes h
    have hmem : ∀ e ∈ shown.items, e ∈ k.entries := fun e he =>
      (perm_of_arrange hdisplay).mem_iff.mp he
    rw [topDown_of_display hdisplay, Node.walkAll_eq_flatMap, List.map_flatMap]
    -- each node on top shows an entry, and the nodes below it show what this one holds
    refine List.rel_flatMap ((List.forall₂_and_left _ _).mpr ⟨hmem, hnodes⟩).flip ?_
    rintro n e ⟨he, hshows, -⟩
    beta_reduce
    rw [Node.walk_eq, List.map_cons]
    cases hinner : e.container? with
    | some inner =>
      rw [topDown_of_container? hinner]
      refine .cons hshows (ih e he inner hinner n.children ?_ (depth + 1))
      obtain ⟨c, rfl⟩ := Entry.container?_eq_some_iff.mp hinner
      exact hshows.2
    | none =>
      cases e with
      | category c sorted entries => cases hinner
      | template t =>
        rw [← Except.ok.inj hshows.2]
        exact .cons hshows .nil

theorem forall₂_shows_topDown {k : Container} {s : Snapshot} (h : capture k = .ok s) :
    List.Forall₂ (fun n e => Node.Shows n e) s.nodes k.topDown :=
  forall₂_shows_walkAll k s.children (shownNodes_of_capture h) 0

/-- A node names the factory of the node template that it shows, if it shows one. -/
theorem Node.Shows.factory_eq_some_iff {n : Node} {e : Entry} (h : n.Shows e) {factory : String} :
    n.factory = some factory ↔ ∃ t, e.madeBy factory = some t := by
  rw [h.1, Node.ofEntry]
  simp only [Entry.madeBy_eq_some_iff]
  rcases e with _ | ⟨t | t⟩ <;> simp [Entry.node?]

/-! ### The search in the snapshot -/

/-- The search for a factory in a tree finds what its snapshot shows first. -/
structure FindsFirst (s : Snapshot) (k : Container) (factory : String) : Prop where
  /-- A walk tells of the nodes in their order. -/
  walk : s.walk.map Prod.snd = s.nodes.map fun n => n.id
  all : k.topDown.Perm (Entry.listed k.entries)
  /-- The nodes show the entries one by one. -/
  shows : List.Forall₂ (fun n e => Node.Shows n e) s.nodes k.topDown
  answered : ∃ found, k.findFactory factory = .ok found
  none_iff : k.findFactory factory = .ok none ↔ ∀ n ∈ s.nodes, n.factory ≠ some factory
  /-- The answer is the node template that is shown by the first node with the factory. -/
  some_iff (t : NodeTemplate) : k.findFactory factory = .ok (some t) ↔
    ∃ before n after, s.nodes.zip k.topDown = before ++ (n, .template (.node t)) :: after ∧
      n.factory = some factory ∧ ∀ p ∈ before, p.1.factory ≠ some factory

/-- A search goes through pairs of nodes and entries as through the entries. -/
theorem findSome?_zip {ns : List Node} {es : List Entry}
    (h : List.Forall₂ (fun n e => Node.Shows n e) ns es) (factory : String) :
    es.findSome? (Entry.madeBy factory) =
      (ns.zip es).findSome? fun p => p.2.madeBy factory := by
  conv_lhs => rw [← List.map_snd_zip h.length_eq.ge]
  exact List.findSome?_map

/-- Whatever tree is captured, a search in it finds what its snapshot shows first. -/
theorem findsFirst_of_capture {k : Container} {s : Snapshot} (h : capture k = .ok s)
    (factory : String) : s.FindsFirst k factory := by
  have hshows := forall₂_shows_topDown h
  have hfactory : ∀ p ∈ s.nodes.zip k.topDown,
      (p.1.factory = some factory ↔ ∃ t, p.2.madeBy factory = some t) := by
    rintro ⟨n, e⟩ hp
    exact (List.forall₂_zip hshows hp).factory_eq_some_iff
  have hnone : ∀ p ∈ s.nodes.zip k.topDown,
      (p.2.madeBy factory = none ↔ p.1.factory ≠ some factory) := by
    intro p hp
    rw [Ne, hfactory p hp, ← Option.isSome_iff_exists, Option.not_isSome_iff_eq_none]
  have hsearch : k.findFactory factory =
      .ok ((s.nodes.zip k.topDown).findSome? fun p => p.2.madeBy factory) := by
    rw [findFactory_eq factory k ⟨_, shownNodes_of_capture h⟩, findSome?_zip hshows]
  refine
    { walk := ?walk
      all := topDown_perm k ⟨_, shownNodes_of_capture h⟩
      shows := hshows
      answered := ⟨_, hsearch⟩
      none_iff := ?none
      some_iff := ?some }
  case walk => rw [walk_eq, nodes, List.map_map, List.map_map]; rfl
  case none =>
    rw [hsearch, Except.ok.injEq, List.findSome?_eq_none_iff]
    conv_rhs => rw [← List.map_fst_zip hshows.length_eq.le]
    rw [List.forall_mem_map]
    exact forall₂_congr hnone
  case some =>
    intro t
    have hsplit : ∀ {before p after}, s.nodes.zip k.topDown = before ++ p :: after →
        p ∈ s.nodes.zip k.topDown ∧ ∀ q ∈ before, q ∈ s.nodes.zip k.topDown := by
      intro before p after heq
      rw [heq]
      exact ⟨List.mem_append_right _ List.mem_cons_self, fun q hq => List.mem_append_left _ hq⟩
    rw [hsearch, Except.ok.injEq, List.findSome?_eq_some_iff]
    constructor
    · rintro ⟨before, ⟨n, e⟩, after, heq, ht, hbefore⟩
      obtain ⟨hhit, hmem⟩ := hsplit heq
      obtain ⟨rfl, -⟩ := Entry.madeBy_eq_some_iff.mp ht
      exact ⟨before, n, after, heq, (hfactory _ hhit).mpr ⟨t, ht⟩,
        fun p hp => (hnone p (hmem p hp)).mp (hbefore p hp)⟩
    · rintro ⟨before, n, after, heq, hn, hbefore⟩
      obtain ⟨hhit, hmem⟩ := hsplit heq
      -- the entry that the node shows is the template itself
      obtain ⟨t', ht'⟩ := (hfactory _ hhit).mp hn
      obtain ⟨htemplate, -⟩ := Entry.madeBy_eq_some_iff.mp ht'
      cases htemplate
      exact ⟨before, _, after, heq, ht', fun p hp => (hnone p (hmem p hp)).mpr (hbefore p hp)⟩

/-- A root that holds a node, a nested workflow, and behind them a category.  This one is shown
first, and in it a node that follows nothing that is there is shown last. -/
def behind : Container where
  entries :=
    [.template (.node { id := "n", name := "N", factory := "f" }),
      .template (.metaNode { id := "m", name := "M", directory := "f" }),
      .category { id := "c", name := "C" } true
        [.template (.node { id := "lost", name := "A", after := "gone", factory := "f" }),
          .template (.node { id := "found", name := "B", factory := "f" })]]

theorem findsFirst_of_capture_behind :
    (∃ s, capture behind = .ok s ∧ s.FindsFirst behind "f") ∧
      (behind.findFactory "f").toOption.map (fun t => t.map NodeTemplate.id) =
        some (some "found") := by
  refine ⟨?_, by cbv⟩
  have hcapture : (capture behind).toOption.isSome := by cbv
  cases h : capture behind with
  | error fault =>
    rw [h] at hcapture
    cases hcapture
  | ok s => exact ⟨s, rfl, findsFirst_of_capture h "f"⟩

end Snapshot

end NodeCatalog
