import NodeCatalog.Catalog.Basic
import NodeCatalog.Proofs.Container.Apart

/-!
# Where queries of the whole tree fail

Nothing but a repeated key in a container that sorts makes a container unshowable, and the fault
names the id of such a key (`Container.doubled_of_display_eq_error`).  The queries of the whole tree
go through its containers in different ways: the snapshot in the order in which entries are shown,
the issues and the categories among the problems in insertion order, with what is below a container
behind it.  Each of them is answered only if all containers can be shown, and its fault is that of
one of them.  So all fail on the same catalogs, with an id that some container that sorts holds
twice (`Catalog.queries_fail_where_doubled`).

A search for a factory may end before it comes to such a container.  If it finds nothing, it went
through all of them.
-/

namespace NodeCatalog

/-! ### Repeated ids -/

namespace After

variable {α : Type u} {v : View α} {items : List α} {r : Repeated}

theorem two_le_count_of_firstRepeated {seen ids : List String} {id : String}
    (h : firstRepeated seen ids = some id) : 2 ≤ ids.count id ∨ id ∈ seen ∧ id ∈ ids := by
  induction ids generalizing seen with
  | nil => cases h
  | cons x ids ih =>
    rw [firstRepeated] at h
    split at h
    · rename_i hx
      obtain rfl := Option.some.inj h
      exact .inr ⟨hx, List.mem_cons_self⟩
    · rcases ih h with hcount | ⟨hseen, hmem⟩
      · exact .inl (Nat.le_trans hcount List.count_le_count_cons)
      · rcases List.mem_cons.mp hseen with rfl | hseen
        · -- the id was put to those seen just now, and comes again
          rw [List.count_cons_self]
          exact .inl (Nat.succ_le_succ (List.one_le_count_iff.mpr hmem))
        · exact .inr ⟨hseen, List.mem_cons_of_mem _ hmem⟩

theorem two_le_count_of_orderGroup_eq_error (h : orderGroup v items = .error r) :
    2 ≤ (items.map v.id).count r.id := by
  unfold orderGroup at h
  split at h
  · rename_i hfirst
    obtain rfl := Except.error.inj h
    exact (two_le_count_of_firstRepeated hfirst).resolve_right fun hseen =>
      absurd hseen.1 List.not_mem_nil
  · cases h

/-- The id that is refused occurs twice in one of the groups. -/
theorem exists_two_le_count_of_order_eq_error (h : order v items = .error r) :
    ∃ kind, 2 ≤ ((v.ofKind kind items).map v.id).count r.id := by
  unfold order at h
  cases hcategories : orderGroup v (v.ofKind .category items) with
  | error r' =>
    rw [hcategories] at h
    obtain rfl := Except.error.inj h
    exact ⟨.category, two_le_count_of_orderGroup_eq_error hcategories⟩
  | ok categories =>
    cases hleaves : orderGroup v (v.ofKind .leaf items) with
    | error r' =>
      rw [hcategories, hleaves] at h
      obtain rfl := Except.error.inj h
      exact ⟨.leaf, two_le_count_of_orderGroup_eq_error hleaves⟩
    | ok leaves =>
      rw [hcategories, hleaves] at h
      cases h

end After

/-! ### One container -/

namespace Container

/-- The container sorts and holds two entries of one kind with this id. -/
def Doubled (k : Container) (id : String) : Prop :=
  k.sorted = true ∧ ∃ kind, 2 ≤ k.keys.count (id, kind)

theorem count_keys (k : Container) (id : String) (kind : After.Kind) :
    k.keys.count (id, kind) = ((Entry.view.ofKind kind k.entries).map Entry.id).count id := by
  rw [keys, After.View.ofKind, List.count_eq_countP, List.count_eq_countP, List.countP_map,
    List.countP_map, List.countP_filter]
  refine List.countP_congr fun e _ => ?_
  simp [Entry.key, Entry.view]

/-- A container that cannot be shown holds an id twice, and the fault names it. -/
theorem doubled_of_display_eq_error {k : Container} {fault : Fault} (h : k.display = .error fault) :
    ∃ id, fault = .duplicateId id ∧ k.Doubled id := by
  unfold display arrange at h
  split at h
  · rename_i hsorted
    cases horder : After.order (Entry.view.comap fun e => e) k.entries with
    | error r =>
      rw [horder] at h
      obtain rfl := Except.error.inj h
      obtain ⟨kind, hcount⟩ := After.exists_two_le_count_of_order_eq_error horder
      refine ⟨r.id, rfl, hsorted, kind, ?_⟩
      rw [count_keys]
      exact hcount
    | ok shown =>
      rw [horder] at h
      cases h
  · cases h

theorem not_doubled_of_display {k : Container} (h : ∃ shown, k.display = .ok shown) (id : String) :
    ¬ k.Doubled id := by
  rintro ⟨hsorted, kind, hcount⟩
  have hle := List.nodup_iff_count_le_one.mp (exists_display_iff_nodup.mp h hsorted) (id, kind)
  omega

/-! ### Containers of a tree -/

/-- Some container of the tree sorts and holds two entries of one kind with this id. -/
def DoubledWithin (root : Container) (id : String) : Prop :=
  ∃ a k, root.at? a = some k ∧ k.Doubled id

/-- A container of the tree stands at the root, or below an entry. -/
theorem mem_containers {k : Container} {path : String} {p : String × Container} :
    p ∈ k.containers path ↔ p = (path, k) ∨ ∃ e ∈ k.entries, ∃ inner,
      e.container? = some inner ∧ p ∈ inner.containers (Path.join path e.id) := by
  rw [containers, List.mem_cons, containersDeep_eq_flatMap, List.mem_flatMap]
  refine or_congr_right (exists_congr fun e => and_congr_right fun _ => ?_)
  cases e with
  | category c sorted entries =>
    refine ⟨fun hp => ⟨_, rfl, hp⟩, ?_⟩
    rintro ⟨_, ⟨⟩, hp⟩
    exact hp
  | template t => exact ⟨fun hp => absurd hp List.not_mem_nil, fun ⟨_, hinner, _⟩ => nomatch hinner⟩

theorem exists_at?_of_mem_containers {k : Container} {path : String} {p : String × Container}
    (h : p ∈ k.containers path) : ∃ a, k.at? a = some p.2 := by
  induction k using Container.induction generalizing path with
  | step k ih =>
    rcases mem_containers.mp h with rfl | ⟨e, he, inner, hinner, hp⟩
    · exact ⟨[], rfl⟩
    · obtain ⟨i, hi⟩ := List.mem_iff_getElem?.mp he
      obtain ⟨a, ha⟩ := ih e he inner hinner hp
      refine ⟨i :: a, ?_⟩
      rw [at?, inner?, hi, Option.bind_some, hinner]
      exact ha

theorem exists_mem_containers_of_at? {k x : Container} {a : List Nat} (h : k.at? a = some x)
    (path : String) : ∃ p ∈ k.containers path, p.2 = x := by
  induction a generalizing k path with
  | nil =>
    obtain rfl := Option.some.inj h
    exact ⟨_, List.mem_cons_self, rfl⟩
  | cons i a ih =>
    obtain ⟨c, next, he, hnext, ha⟩ := exists_of_at?_cons h
    obtain ⟨p, hp, hx⟩ := ih ha (Path.join path c.id)
    exact ⟨p, mem_containers.mpr (.inr ⟨_, List.mem_of_getElem? he, next, rfl, hp⟩), hx⟩

/-! ### Queries that go through all containers -/

/-- The answer is a fault exactly if some container of the tree sorts and holds an id twice, and the
fault names such an id. -/
structure FailsWhereDoubled {α : Type} (root : Container) (answer : Except Fault α) : Prop where
  fails_iff : (∃ fault, answer = .error fault) ↔ ∃ id, root.DoubledWithin id
  told : ∀ fault, answer = .error fault → ∃ id, fault = .duplicateId id ∧ root.DoubledWithin id

/-- A query is answered if all containers can be shown, or else has the fault of one of them. -/
theorem failsWhereDoubled_of_cases {α : Type} {k : Container} {answer : Except Fault α}
    (path : String)
    (h : (∃ x, answer = .ok x) ∧ (∀ p ∈ k.containers path, ∃ shown, p.2.display = .ok shown) ∨
      ∃ fault, answer = .error fault ∧ ∃ p ∈ k.containers path, p.2.display = .error fault) :
    k.FailsWhereDoubled answer := by
  rcases h with ⟨⟨x, rfl⟩, hshown⟩ | ⟨fault, rfl, p, hp, hdisplay⟩
  · refine ⟨⟨nofun, ?_⟩, nofun⟩
    rintro ⟨id, a, inner, ha, hdoubled⟩
    obtain ⟨p, hp, rfl⟩ := exists_mem_containers_of_at? ha path
    exact absurd hdoubled (not_doubled_of_display (hshown p hp) id)
  · obtain ⟨id, rfl, hdoubled⟩ := doubled_of_display_eq_error hdisplay
    obtain ⟨a, ha⟩ := exists_at?_of_mem_containers hp
    have hwithin : k.DoubledWithin id := ⟨a, p.2, ha, hdoubled⟩
    refine ⟨⟨fun _ => ⟨id, hwithin⟩, fun _ => ⟨_, rfl⟩⟩, ?_⟩
    rintro _ ⟨⟩
    exact ⟨id, rfl, hwithin⟩

end Container

/-! ### Sequences of answers -/

section Answers

variable {α : Type u} {β γ : Type v}

/-- Where two steps fail, the first does, or the second after its answer. -/
theorem exists_of_bind_eq_error {a : Except Fault β} {f : β → Except Fault γ} {fault : Fault}
    (h : a >>= f = .error fault) : a = .error fault ∨ ∃ x, a = .ok x ∧ f x = .error fault := by
  cases a with
  | error fault' => exact .inl (congrArg Except.error (Except.error.inj h))
  | ok x => exact .inr ⟨x, rfl, h⟩

/-- Where a list of members fails, one of them does, with the same fault. -/
theorem exists_of_mapM_eq_error {f : α → Except Fault β} {as : List α} {fault : Fault}
    (h : as.mapM f = .error fault) : ∃ a ∈ as, f a = .error fault := by
  induction as with
  | nil => cases h
  | cons a as ih =>
    rw [List.mapM_cons] at h
    rcases exists_of_bind_eq_error h with hfault | ⟨b, -, h⟩
    · exact ⟨a, List.mem_cons_self, hfault⟩
    · rcases exists_of_bind_eq_error h with hfault | ⟨bs, -, h⟩
      · obtain ⟨c, hc, hfault⟩ := ih hfault
        exact ⟨c, List.mem_cons_of_mem _ hc, hfault⟩
      · cases h

end Answers

/-! ### Snapshots -/

open Container Snapshot

/-- Things that cannot be arranged are those of a container that cannot be shown. -/
theorem Container.display_eq_error_of_arrange {β : Type} {sorted : Bool} {f : Entry → β}
    {es : List Entry} {fault : Fault}
    (h : arrange Prod.fst sorted (es.map fun e => (e, f e)) = .error fault) :
    display ⟨sorted, es⟩ = .error fault := by
  have hdisplay := display_map Prod.fst sorted (es.map fun e => (e, f e))
  rw [List.map_map, Function.comp_def, List.map_id', h] at hdisplay
  exact hdisplay

theorem Snapshot.exists_of_shownNodes_eq_error {sorted : Bool} {es : List Entry} {fault : Fault}
    (h : shownNodes sorted (nodesEach es) = .error fault) :
    display ⟨sorted, es⟩ = .error fault ∨ ∃ e ∈ es, nodesWithin e = .error fault := by
  rw [nodesEach_eq_map] at h
  unfold shownNodes at h
  rcases exists_of_bind_eq_error h with harrange | ⟨shown, harrange, h⟩
  · exact .inl (display_eq_error_of_arrange harrange)
  · obtain ⟨p, hp, hnode⟩ := exists_of_mapM_eq_error h
    obtain ⟨e, he, rfl⟩ := List.mem_map.mp ((perm_of_arrange harrange).mem_iff.mp hp)
    rcases exists_of_bind_eq_error hnode with hfault | ⟨ns, -, hnode⟩
    · exact .inr ⟨e, he, hfault⟩
    · cases hnode

theorem Snapshot.exists_of_nodesWithin_eq_error {es : List Entry} {fault : Fault} (path : String)
    (h : ∃ e ∈ es, nodesWithin e = .error fault) :
    ∃ p ∈ containersDeep path es, p.2.display = .error fault := by
  induction es using Entry.forest_induction generalizing path with
  | nil =>
    obtain ⟨e, he, -⟩ := h
    exact absurd he List.not_mem_nil
  | category c sorted entries rest ihe ihr =>
    rw [containersDeep, containersWithin, List.cons_append]
    obtain ⟨e, he, hfault⟩ := h
    rcases List.mem_cons.mp he with rfl | he
    · rcases exists_of_shownNodes_eq_error hfault with hdisplay | hinner
      · exact ⟨_, List.mem_cons_self, hdisplay⟩
      · obtain ⟨p, hp, hdisplay⟩ := ihe (Path.join path c.id) hinner
        exact ⟨p, List.mem_cons_of_mem _ (List.mem_append_left _ hp), hdisplay⟩
    · obtain ⟨p, hp, hdisplay⟩ := ihr path ⟨e, he, hfault⟩
      exact ⟨p, List.mem_cons_of_mem _ (List.mem_append_right _ hp), hdisplay⟩
  | template t rest ihr =>
    obtain ⟨e, he, hfault⟩ := h
    rcases List.mem_cons.mp he with rfl | he
    · cases hfault
    · exact ihr path ⟨e, he, hfault⟩

theorem Snapshot.exists_of_capture_eq_error {k : Container} {fault : Fault}
    (h : capture k = .error fault) (path : String) :
    ∃ p ∈ k.containers path, p.2.display = .error fault := by
  unfold capture at h
  rcases exists_of_bind_eq_error h with hnodes | ⟨nodes, -, h⟩
  · rcases exists_of_shownNodes_eq_error hnodes with hdisplay | hinner
    · exact ⟨_, List.mem_cons_self, hdisplay⟩
    · obtain ⟨p, hp, hdisplay⟩ := exists_of_nodesWithin_eq_error path hinner
      exact ⟨p, List.mem_cons_of_mem _ hp, hdisplay⟩
  · cases h

/-! ### Issues -/

/-- Issues are collected up to the end, or up to a container that cannot be shown. -/
theorem Issue.collect_cases (containers : List (String × Container)) :
    (∃ issues, collect containers = (issues, none)) ∧
        (∀ p ∈ containers, ∃ shown, p.2.display = .ok shown) ∨
      ∃ fault, (∃ issues, collect containers = (issues, some fault)) ∧
        ∃ p ∈ containers, p.2.display = .error fault := by
  induction containers with
  | nil => exact .inl ⟨⟨[], rfl⟩, fun p hp => absurd hp List.not_mem_nil⟩
  | cons p rest ih =>
    rw [collect]
    cases hdisplay : p.2.display with
    | error fault => exact .inr ⟨fault, ⟨[], rfl⟩, p, List.mem_cons_self, hdisplay⟩
    | ok shown =>
      rcases ih with ⟨⟨issues, hissues⟩, hrest⟩ | ⟨fault, ⟨issues, hissues⟩, q, hq, hfault⟩
      · refine .inl ⟨⟨shown.problems.map (explain p.1 p.2.entries) ++ issues, ?_⟩, ?_⟩
        · rw [hissues]
        · exact List.forall_mem_cons.mpr ⟨⟨shown, hdisplay⟩, hrest⟩
      · refine .inr ⟨fault, ⟨shown.problems.map (explain p.1 p.2.entries) ++ issues, ?_⟩, ?_⟩
        · rw [hissues]
        · exact ⟨q, List.mem_cons_of_mem _ hq, hfault⟩

/-! ### Searches that find nothing -/

namespace Container

theorem eq_ok_none_of_firstFound {answers : List (Except Fault (Option NodeTemplate))}
    (h : firstFound answers = .ok none) : ∀ a ∈ answers, a = .ok none := by
  induction answers with
  | nil => exact fun a ha => absurd ha List.not_mem_nil
  | cons a answers ih =>
    rcases a with fault | _ | t
    · cases h
    · exact List.forall_mem_cons.mpr ⟨rfl, ih h⟩
    · cases h

/-- Where a search finds nothing, the container can be shown, and nothing is found in any entry. -/
theorem exists_of_firstShown_eq_none {factory : String} {sorted : Bool} {es : List Entry}
    (h : firstShown sorted (findFactoryEach factory es) = .ok none) :
    (∃ shown, display ⟨sorted, es⟩ = .ok shown) ∧
      ∀ e ∈ es, findFactoryWithin factory e = .ok none := by
  rw [findFactoryEach_eq_map] at h
  obtain ⟨shown, harrange, hfound⟩ := exists_of_bind_eq_ok h
  refine ⟨(exists_display_iff es).mpr ⟨shown, harrange⟩, fun e he => ?_⟩
  have hmem : (e, findFactoryWithin factory e) ∈ shown.items :=
    (perm_of_arrange harrange).mem_iff.mpr (List.mem_map_of_mem he)
  exact eq_ok_none_of_firstFound hfound _ (List.mem_map_of_mem hmem)

theorem exists_display_of_findFactoryWithin {factory : String} {es : List Entry}
    (h : ∀ e ∈ es, findFactoryWithin factory e = .ok none) (path : String) :
    ∀ p ∈ containersDeep path es, ∃ shown, p.2.display = .ok shown := by
  induction es using Entry.forest_induction generalizing path with
  | nil => exact fun p hp => absurd hp List.not_mem_nil
  | category c sorted entries rest ihe ihr =>
    obtain ⟨hcategory, hrest⟩ := List.forall_mem_cons.mp h
    obtain ⟨hdisplay, hinner⟩ := exists_of_firstShown_eq_none hcategory
    rw [containersDeep, containersWithin, List.cons_append]
    exact List.forall_mem_cons.mpr ⟨hdisplay, List.forall_mem_append.mpr
      ⟨ihe hinner (Path.join path c.id), ihr hrest path⟩⟩
  | template t rest ihr => exact ihr (List.forall_mem_cons.mp h).2 path

/-- Where a search of the whole tree finds nothing, all containers can be shown. -/
theorem exists_display_of_findFactory {k : Container} {factory : String}
    (h : k.findFactory factory = .ok none) (path : String) :
    ∀ p ∈ k.containers path, ∃ shown, p.2.display = .ok shown := by
  obtain ⟨hdisplay, hinner⟩ := exists_of_firstShown_eq_none h
  exact List.forall_mem_cons.mpr ⟨hdisplay, exists_display_of_findFactoryWithin hinner path⟩

end Container

/-! ### The queries -/

namespace Catalog

theorem failsWhereDoubled_snapshot (cat : Catalog) : cat.root.FailsWhereDoubled cat.snapshot := by
  refine failsWhereDoubled_of_cases Path.root ?_
  cases h : cat.snapshot with
  | ok s => exact .inl ⟨⟨s, rfl⟩, display_of_capture h Path.root⟩
  | error fault => exact .inr ⟨fault, rfl, exists_of_capture_eq_error h Path.root⟩

/-- The issues are told if all containers can be shown, or else the fault of one of them. -/
theorem issues_cases (cat : Catalog) :
    (∃ issues, cat.issues = .ok issues) ∧
        (∀ p ∈ cat.root.containers Path.root, ∃ shown, p.2.display = .ok shown) ∨
      ∃ fault, cat.issues = .error fault ∧
        ∃ p ∈ cat.root.containers Path.root, p.2.display = .error fault := by
  unfold issues Container.issues
  refine (Issue.collect_cases (cat.root.containers Path.root)).imp ?_ ?_
  · rintro ⟨⟨issues, hissues⟩, hdisplay⟩
    rw [hissues]
    exact ⟨⟨issues, rfl⟩, hdisplay⟩
  · rintro ⟨fault, ⟨issues, hissues⟩, hdisplay⟩
    rw [hissues]
    exact ⟨fault, rfl, hdisplay⟩

theorem failsWhereDoubled_issues (cat : Catalog) : cat.root.FailsWhereDoubled cat.issues :=
  failsWhereDoubled_of_cases Path.root cat.issues_cases

theorem failsWhereDoubled_report (cat : Catalog) : cat.root.FailsWhereDoubled cat.report := by
  refine failsWhereDoubled_of_cases Path.root (cat.issues_cases.imp ?_ ?_)
  · rintro ⟨⟨issues, hissues⟩, hdisplay⟩
    rw [report, hissues]
    exact ⟨⟨_, rfl⟩, hdisplay⟩
  · rintro ⟨fault, hissues, hdisplay⟩
    rw [report, hissues]
    exact ⟨fault, rfl, hdisplay⟩

theorem failsWhereDoubled_problemCategories (k : Container) :
    k.FailsWhereDoubled k.problemCategories := by
  refine failsWhereDoubled_of_cases Path.root ?_
  unfold problemCategories
  cases h : (k.containers Path.root).mapM fun p => p.2.ownProblemCategories with
  | ok found =>
    refine .inl ⟨⟨_, rfl⟩, fun p hp => ?_⟩
    obtain ⟨categories, hown⟩ := exists_of_mapM_eq_ok h hp
    obtain ⟨shown, hdisplay, -⟩ := exists_of_bind_eq_ok hown
    exact ⟨shown, hdisplay⟩
  | error fault =>
    obtain ⟨p, hp, hown⟩ := exists_of_mapM_eq_error h
    rcases exists_of_bind_eq_error hown with hdisplay | ⟨shown, -, hown⟩
    · exact .inr ⟨fault, rfl, p, hp, hdisplay⟩
    · cases hown

/-- The snapshot, the issues, the report and the categories among the problems fail on the same
catalogs: those in which some container sorts and holds two entries of one kind and id.  Each fault
names such an id.  A search that finds nothing is answered only if there is no such container. -/
theorem queries_fail_where_doubled (cat : Catalog) :
    cat.root.FailsWhereDoubled cat.snapshot ∧ cat.root.FailsWhereDoubled cat.issues ∧
      cat.root.FailsWhereDoubled cat.report ∧
      cat.root.FailsWhereDoubled cat.root.problemCategories ∧
      ∀ factory, cat.root.findFactory factory = .ok none → ∃ s, cat.snapshot = .ok s :=
  ⟨cat.failsWhereDoubled_snapshot, cat.failsWhereDoubled_issues, cat.failsWhereDoubled_report,
    failsWhereDoubled_problemCategories cat.root, fun _ h =>
      (exists_capture_iff Path.root).mpr (exists_display_of_findFactory h Path.root)⟩

/-- A category, sorted or not, with two nodes and a category of one id. -/
def crowded (sorted : Bool) : Catalog where
  settings := {}
  root := ⟨false, [.category { id := "c", name := "C" } sorted
    [.template (.node { id := "x", name := "X", factory := "f" }),
      .category { id := "x", name := "X" } true [],
      .template (.node { id := "x", name := "Y", factory := "f" })]]⟩

theorem queries_fail_where_doubled_crowded :
    (crowded true).root.DoubledWithin "x" ∧
      (∃ fault, (crowded true).snapshot = .error fault) ∧
      (∃ fault, (crowded true).root.problemCategories = .error fault) ∧
      (crowded false).root.findFactory "g" = .ok none ∧
      ∃ s, (crowded false).snapshot = .ok s := by
  have hdoubled : (crowded true).root.DoubledWithin "x" :=
    ⟨[0], _, rfl, rfl, .leaf, by decide⟩
  have hsearch : (crowded false).root.findFactory "g" = .ok none := by decide +kernel
  obtain ⟨hsnapshot, -, -, hcategories, -⟩ := queries_fail_where_doubled (crowded true)
  obtain ⟨-, -, -, -, hfound⟩ := queries_fail_where_doubled (crowded false)
  exact ⟨hdoubled, hsnapshot.fails_iff.mpr ⟨"x", hdoubled⟩,
    hcategories.fails_iff.mpr ⟨"x", hdoubled⟩, hsearch, hfound "g" hsearch⟩

end Catalog

end NodeCatalog
