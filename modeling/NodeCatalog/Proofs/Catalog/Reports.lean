import NodeCatalog.Catalog.Basic
import NodeCatalog.Proofs.Container.Flags

/-!
# What is told of problems

The issues, the report, the flags of the snapshot, the counts by kind and the problem categories are
computed apart from each other, and all tell of the same entries.  `Container.blamed` lists these,
each with its issue, and where the tree can be captured, everything that is told agrees with this
list (`reportsAgree_of_snapshot`).
-/

namespace NodeCatalog

open Container

/-- The issues of a container and of all below it, each with the entry that could not be placed. -/
def Container.blamed (path : String) (k : Container) : List (Issue × Entry) :=
  (k.containers path).flatMap fun p =>
    p.2.problems.map fun e => (Issue.explain p.1 p.2.entries e, e)

namespace Container

variable {k : Container} {shown : After.Ordered Entry}

theorem length_blamed (path : String) (k : Container) :
    (k.blamed path).length = ((k.containers path).map fun p => p.2.problems.length).sum := by
  rw [blamed, List.length_flatMap]
  simp only [List.length_map]

theorem map_fst_blamed (path : String) (k : Container) :
    (k.blamed path).map Prod.fst =
      (k.containers path).flatMap fun p => Issue.ownIssues p.1 p.2 := by
  rw [blamed, List.map_flatMap]
  refine List.flatMap_congr fun p _ => ?_
  rw [List.map_map, Issue.ownIssues, problems]
  cases p.2.display <;> rfl

/-- An entry is blamed by an issue that names it and the container that holds it. -/
theorem exists_of_mem_blamed {path : String} {p : Issue × Entry} (hp : p ∈ k.blamed path) :
    ∃ q ∈ k.containers path, p.2 ∈ q.2.problems ∧ p.1.Names q.1 p.2 := by
  obtain ⟨q, hq, hp⟩ := List.mem_flatMap.mp hp
  obtain ⟨e, he, rfl⟩ := List.mem_map.mp hp
  exact ⟨q, hq, he, Issue.names_explain q.1 q.2.entries e⟩

/-- The categories among the entries blamed, container by container. -/
theorem filterMap_blamed (path : String) (k : Container) :
    (k.blamed path).filterMap (fun p => p.2.category?) =
      (k.containers path).flatMap fun p => p.2.problems.filterMap Entry.category? := by
  rw [blamed, List.filterMap_flatMap]
  refine List.flatMap_congr fun p _ => ?_
  rw [List.filterMap_map]
  rfl

theorem ownProblemCategories_eq (h : k.display = .ok shown) :
    k.ownProblemCategories = .ok (k.problems.filterMap Entry.category?) := by
  rw [ownProblemCategories, h, problems_eq h]
  rfl

/-- The problems of a container by kind. -/
def problemCount (k : Container) : ProblemCount :=
  ⟨(Entry.view.ofKind .category k.problems).length, (Entry.view.ofKind .leaf k.problems).length⟩

theorem countProblems_eq (h : k.display = .ok shown) : k.countProblems = .ok k.problemCount := by
  rw [countProblems, h, problemCount, problems_eq h]
  rfl

/-- Each problem is counted, under one of the two kinds. -/
theorem categories_add_leaves (k : Container) :
    k.problemCount.categories + k.problemCount.leaves = k.problems.length := by
  have hleaf : Entry.view.ofKind .leaf k.problems =
      k.problems.filter fun e => !(Entry.view.kind e == .category) := by
    refine List.filter_congr fun e _ => ?_
    cases Entry.view.kind e <;> rfl
  rw [problemCount, hleaf, After.View.ofKind, ← List.length_eq_length_filter_add]

end Container

namespace Catalog

/-- Whatever is told of the problems of a catalog tells of the entries blamed. -/
structure ReportsAgree (cat : Catalog) (s : Snapshot) : Prop where
  issues : cat.issues = .ok ((cat.root.blamed Path.root).map Prod.fst)
  /-- Each issue, and its text, names the entry and the container that holds it. -/
  named : ∀ p ∈ cat.root.blamed Path.root, ∃ q ∈ cat.root.containers Path.root,
    p.2 ∈ q.2.problems ∧ p.1.Names q.1 p.2
  /-- The report counts the same, whether it warns of them or not. -/
  report : ∀ settings, Catalog.report { cat with settings } = .ok
    { count := (cat.root.blamed Path.root).length
      warnings := if settings.warnOnProblems then
        (cat.root.blamed Path.root).map fun p => p.1.message else [] }
  flags : Snapshot.countFlags s.children = (cat.root.blamed Path.root).length
  counts : ∃ counts,
    ((cat.root.containers Path.root).mapM fun p => p.2.countProblems) = .ok counts ∧
      (counts.map fun c => c.categories + c.leaves).sum = (cat.root.blamed Path.root).length
  /-- The problem categories are the categories among them, in the same order. -/
  categories : cat.root.problemCategories =
    .ok ((cat.root.blamed Path.root).filterMap fun p => p.2.category?)
  shown : ∀ p ∈ cat.root.containers Path.root, ∃ nodes, s.Shows cat.root p.1 p.2 nodes
  /-- In each container the flagged nodes show the entries whose issues come first, before those of
  the containers below. -/
  flagged : ∀ path k nodes, s.Shows cat.root path k nodes → ∃ shown, k.display = .ok shown ∧
    (k.issues path).1 = shown.problems.map (Issue.explain path k.entries) ++
      (Issue.collect (containersDeep path k.entries)).1 ∧
    List.Forall₂ (fun e n => n.Shows e ∧ (n.problem = true ↔ e ∈ shown.problems))
      shown.items nodes ∧
    List.Forall₂ (fun e n => n.Shows e) shown.problems (nodes.filter fun n => n.problem)

/-- Where a catalog can be shown as a whole, whatever is told of its problems agrees. -/
theorem reportsAgree_of_snapshot {cat : Catalog} {s : Snapshot} (h : cat.snapshot = .ok s) :
    cat.ReportsAgree s := by
  have hdisplay : ∀ p ∈ cat.root.containers Path.root, ∃ shown, p.2.display = .ok shown :=
    display_of_capture h Path.root
  have hissues : cat.root.issues Path.root = ((cat.root.blamed Path.root).map Prod.fst, none) := by
    rw [map_fst_blamed]
    exact Issue.collect_of_display hdisplay
  refine
    { issues := ?issues
      named := fun _ hp => exists_of_mem_blamed hp
      report := fun settings => ?report
      flags := ?flags
      counts := ?counts
      categories := ?categories
      shown := Snapshot.exists_shows h
      flagged := fun path k nodes hshows => ?flagged }
  case issues => rw [Catalog.issues, hissues]
  case report =>
    have hall : Catalog.issues { cat with settings } =
        .ok ((cat.root.blamed Path.root).map Prod.fst) := by
      rw [Catalog.issues, hissues]
    rw [Catalog.report, hall]
    change Except.ok (Report.mk _ _) = _
    rw [List.length_map, List.map_map]
    rfl
  case flags => rw [length_blamed, Snapshot.countFlags_eq_sum h Path.root]
  case counts =>
    refine ⟨_, mapM_eq_ok fun p hp => (hdisplay p hp).elim fun shown hshown =>
      countProblems_eq hshown, ?_⟩
    rw [List.map_map, length_blamed]
    exact congrArg List.sum (List.map_congr_left fun p _ => p.2.categories_add_leaves)
  case categories =>
    rw [problemCategories, mapM_eq_ok fun p hp => (hdisplay p hp).elim fun shown hshown =>
      ownProblemCategories_eq hshown, filterMap_blamed, List.flatMap]
    rfl
  case flagged =>
    obtain ⟨shown, hshown, hnodes⟩ :=
      Snapshot.forall₂_shows_of_shownNodes (hshows.shownNodes_eq h)
    have hshown : k.display = .ok shown := hshown
    refine ⟨shown, hshown, ?_, hnodes, Snapshot.forall₂_filter_problem hshown hnodes⟩
    rw [Container.issues, containers, Issue.collect, hshown]

/-- Containers that sort and one that does not, within each other, with problems at each depth; a
category and a node share their id. -/
def mixed : Catalog where
  settings := { warnOnProblems := false }
  root := ⟨true,
    [.category { id := "a", name := "A", after := "gone" } false
      [.template (.node { id := "x", name := "X", after := "x", factory := "f" }),
        .category { id := "b", name := "B", after := "gone" } true
          [.category { id := "y", name := "Y", after := "y" } true [],
            .template (.node { id := "y", name := "Y", factory := "f" }),
            .template (.node { id := "z", name := "Z", after := "q", factory := "f" })]],
      .template (.node { id := "a", name := "A", after := "a", factory := "f" })]⟩

theorem reportsAgree_of_snapshot_mixed :
    ∃ s, mixed.snapshot = .ok s ∧ Snapshot.countFlags s.children = 4 ∧ mixed.ReportsAgree s := by
  have hflags : mixed.snapshot.toOption.map (fun s => Snapshot.countFlags s.children) = some 4 := by
    cbv
  cases h : mixed.snapshot with
  | error fault =>
    rw [h] at hflags
    cases hflags
  | ok s =>
    rw [h] at hflags
    exact ⟨s, rfl, Option.some.inj hflags, reportsAgree_of_snapshot h⟩

end Catalog

end NodeCatalog
