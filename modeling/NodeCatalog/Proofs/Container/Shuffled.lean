import NodeCatalog.Proofs.Container.Issues

/-!
# Trees that differ in insertion order

Two trees are shuffled if, anywhere in them, containers that sort hold the same entries in another
order.  What such trees show is the same: whatever an entry shows by itself and by the multiset of
what its entries show does not change (`Shuffled.perm_map`), and by induction this covers the nodes
of a snapshot and the answers of a search.  So both trees have the same snapshot, the same
templates and the same issues up to their order (`shown_alike_of_shuffled`).
-/

namespace NodeCatalog

open Container Snapshot

namespace Entry

/-- Entries that differ in insertion order only, at any depth below categories that sort. -/
inductive Shuffled : List Entry → List Entry → Prop where
  | perm {es fs : List Entry} : es.Perm fs → Shuffled es fs
  /-- The contents of a category that sorts may be shuffled. -/
  | inside (before : List Entry) (c : Category) {inner inner' : List Entry} (after : List Entry) :
      Shuffled inner inner' →
      Shuffled (before ++ .category c true inner :: after)
        (before ++ .category c true inner' :: after)
  | trans {es fs gs : List Entry} : Shuffled es fs → Shuffled fs gs → Shuffled es gs

/-- If what is seen of a category depends only on what is seen of its entries, in any order, then
the same is seen of shuffled entries. -/
theorem Shuffled.perm_map {γ : Type} {see : Entry → γ}
    (hsee : ∀ c inner inner', (inner.map see).Perm (inner'.map see) →
      see (.category c true inner) = see (.category c true inner')) {es fs : List Entry}
    (h : Shuffled es fs) : (es.map see).Perm (fs.map see) := by
  induction h with
  | perm h => exact h.map see
  | inside before c after _ ih =>
    rw [List.map_append, List.map_append, List.map_cons, List.map_cons, hsee c _ _ ih]
  | trans _ _ ih ih' => exact ih.trans ih'

theorem Shuffled.perm_bare {es fs : List Entry} (h : Shuffled es fs) :
    (es.map bare).Perm (fs.map bare) :=
  h.perm_map fun _ _ _ _ => rfl

/-- An entry without what it holds, with the answer that was found for it, if any. -/
def seen {α : Type} (p : Entry × Except Fault α) : Entry × Option α :=
  (p.1.bare, p.2.toOption)

end Entry

open Entry

/-! ### Snapshots -/

/-- The node of an entry depends on what is seen of it, of the nodes of what it holds, and of the
problems. -/
theorem Snapshot.toOption_node (problems : List (Entry × Except Fault (List Node)))
    (p : Entry × Except Fault (List Node)) :
    Except.toOption (do
      let children ← p.2
      return .ofEntry p.1 (problems.any fun q => q.1.clashes p.1) children) =
    (seen p).2.map (Node.ofEntry (seen p).1 ((problems.map seen).any fun q =>
      q.1.clashes (seen p).1)) := by
  have hclashes : ∀ a b : Entry, a.bare.clashes b.bare = a.clashes b := by
    rintro (_ | _) (_ | _) <;> rfl
  have hnode : ∀ problem children,
      Node.ofEntry p.1.bare problem children = Node.ofEntry p.1 problem children := by
    cases p.1 <;> exact fun _ _ => rfl
  simp only [seen, List.any_map, Function.comp_def, hclashes]
  cases p.2 with
  | error _ => rfl
  | ok children => exact congrArg some (hnode _ children).symm

/-- The nodes of things that sort depend on what is seen of these, in any order. -/
theorem Snapshot.toOption_shownNodes_of_perm
    {things things' : List (Entry × Except Fault (List Node))}
    (h : (things.map seen).Perm (things'.map seen)) :
    (shownNodes true things).toOption = (shownNodes true things').toOption := by
  rcases arrange_of_perm_map Prod.fst Prod.fst (fun _ => rfl) h with
    ⟨_, _, h, h'⟩ | ⟨shown, shown', h, h', hmap⟩
  · unfold shownNodes
    rw [h, h']
    rfl
  · have hitems : List.Forall₂ (fun p p' => seen p = seen p') shown.items shown'.items := by
      rw [← List.forall₂_map_right_iff, ← List.forall₂_map_left_iff, List.forall₂_eq_eq_eq]
      exact congrArg After.Ordered.items hmap
    have hproblems : shown.problems.map seen = shown'.problems.map seen :=
      congrArg After.Ordered.problems hmap
    unfold shownNodes
    rw [h, h']
    refine toOption_mapM_congr (hitems.imp fun p p' hp => ?_)
    rw [toOption_node, toOption_node, hp, hproblems]

/-- What is seen of entries and of the nodes of what they hold is the same for shuffled entries. -/
theorem Entry.Shuffled.perm_nodes {es fs : List Entry} (h : Shuffled es fs) :
    ((nodesEach es).map seen).Perm ((nodesEach fs).map seen) := by
  rw [nodesEach_eq_map, nodesEach_eq_map, List.map_map, List.map_map]
  refine h.perm_map fun c inner inner' hperm => ?_
  rw [← List.map_map, ← List.map_map, ← nodesEach_eq_map, ← nodesEach_eq_map] at hperm
  exact congrArg (Prod.mk _) (toOption_shownNodes_of_perm hperm)

/-! ### Searches -/

theorem Container.toOption_firstFound_congr
    {answers answers' : List (Except Fault (Option NodeTemplate))}
    (h : answers.map Except.toOption = answers'.map Except.toOption) :
    (firstFound answers).toOption = (firstFound answers').toOption := by
  induction answers generalizing answers' with
  | nil =>
    obtain rfl := List.map_eq_nil_iff.mp h.symm
    rfl
  | cons a answers ih =>
    obtain ⟨b, rest, rfl, hab, hrest⟩ := List.map_eq_cons_iff.mp h.symm
    rcases toOption_eq_iff.mp hab with ⟨_, _, rfl, rfl⟩ | ⟨t, rfl, rfl⟩
    · rfl
    · cases t with
      | some t => rfl
      | none =>
        show (firstFound answers).toOption = (firstFound rest).toOption
        exact ih hrest.symm

/-- The answer of a search in things that sort depends on what is seen of these, in any order. -/
theorem Container.toOption_firstShown_of_perm
    {things things' : List (Entry × Except Fault (Option NodeTemplate))}
    (h : (things.map seen).Perm (things'.map seen)) :
    (firstShown true things).toOption = (firstShown true things').toOption := by
  rcases arrange_of_perm_map Prod.fst Prod.fst (fun _ => rfl) h with
    ⟨_, _, h, h'⟩ | ⟨shown, shown', h, h', hmap⟩
  · unfold firstShown
    rw [h, h']
    rfl
  · unfold firstShown
    rw [h, h']
    apply toOption_firstFound_congr
    have hitems := congrArg (fun o => List.map Prod.snd o.items) hmap
    simp only [After.Ordered.map, List.map_map] at hitems ⊢
    exact hitems

theorem Entry.Shuffled.perm_answers {es fs : List Entry} (h : Shuffled es fs) (factory : String) :
    ((findFactoryEach factory es).map seen).Perm ((findFactoryEach factory fs).map seen) := by
  rw [findFactoryEach_eq_map, findFactoryEach_eq_map, List.map_map, List.map_map]
  refine h.perm_map fun c inner inner' hperm => ?_
  rw [← List.map_map, ← List.map_map, ← findFactoryEach_eq_map, ← findFactoryEach_eq_map] at hperm
  exact congrArg (Prod.mk _) (toOption_firstShown_of_perm hperm)

/-! ### Issues -/

/-- Shuffled entries have the same issues below them, up to their order. -/
theorem Entry.Shuffled.perm_issues {es fs : List Entry} (h : Shuffled es fs) (path : String) :
    ((containersDeep path es).flatMap fun p => Issue.ownIssues p.1 p.2).Perm
      ((containersDeep path fs).flatMap fun p => Issue.ownIssues p.1 p.2) := by
  induction h generalizing path with
  | perm h =>
    rw [containersDeep_eq_flatMap, containersDeep_eq_flatMap]
    exact (h.flatMap_right _).flatMap_right _
  | inside before c after hinner ih =>
    simp only [containersDeep_eq_flatMap path, List.flatMap_append, List.flatMap_cons,
      containersWithin, Issue.ownIssues_of_perm hinner.perm_bare]
    exact (((ih _).append_left _).append_right _).append_left _
  | trans _ _ ih ih' => exact (ih path).trans (ih' path)

/-! ### Containers -/

/-- Containers that sort and hold shuffled entries. -/
structure Container.Shuffled (k k' : Container) : Prop where
  sorted : k.sorted = true
  sorted' : k'.sorted = true
  entries : Entry.Shuffled k.entries k'.entries

namespace Container.Shuffled

variable {k k' : Container} (h : k.Shuffled k')

include h

theorem toOption_capture : (capture k).toOption = (capture k').toOption := by
  unfold capture
  rw [h.sorted, h.sorted']
  rcases toOption_eq_iff.mp (toOption_shownNodes_of_perm h.entries.perm_nodes) with
    ⟨fault, fault', hnodes, hnodes'⟩ | ⟨nodes, hnodes, hnodes'⟩
  · rw [hnodes, hnodes']
    rfl
  · rw [hnodes, hnodes']

theorem toOption_findFactory (factory : String) :
    (k.findFactory factory).toOption = (k'.findFactory factory).toOption := by
  unfold findFactory
  rw [h.sorted, h.sorted']
  exact toOption_firstShown_of_perm (h.entries.perm_answers factory)

/-- Shuffled containers have the same issues, container by container, up to their order. -/
theorem perm_issues (path : String) :
    ((k.containers path).flatMap fun p => Issue.ownIssues p.1 p.2).Perm
      ((k'.containers path).flatMap fun p => Issue.ownIssues p.1 p.2) := by
  have hown : Issue.ownIssues path k = Issue.ownIssues path k' := by
    obtain ⟨_, es⟩ := k
    obtain ⟨_, es'⟩ := k'
    obtain ⟨rfl, rfl, hentries⟩ := h
    exact Issue.ownIssues_of_perm hentries.perm_bare path
  unfold containers
  rw [List.flatMap_cons, List.flatMap_cons, hown]
  exact (h.entries.perm_issues path).append_left _

end Container.Shuffled

/-- Shuffled trees are shown alike: they both cannot be captured, or they have the same snapshot,
and then every search for a factory finds the same in both, and they have the same issues up to
their order. -/
theorem shown_alike_of_shuffled {k k' : Container} (h : k.Shuffled k') :
    (∃ fault fault', capture k = .error fault ∧ capture k' = .error fault') ∨
    ∃ s, capture k = .ok s ∧ capture k' = .ok s ∧
      (∀ factory, ∃ t, k.findFactory factory = .ok t ∧ k'.findFactory factory = .ok t) ∧
      ∀ path, ∃ issues issues', k.issues path = (issues, none) ∧ k'.issues path = (issues', none) ∧
        issues.Perm issues' := by
  rcases toOption_eq_iff.mp h.toOption_capture with hfaults | ⟨s, hcapture, hcapture'⟩
  · exact .inl hfaults
  refine .inr ⟨s, hcapture, hcapture', fun factory => ?_, fun path => ?_⟩
  · -- both trees answer, and what they answer is the same
    obtain ⟨t, ht⟩ := findFactory_of_capture hcapture factory
    rcases toOption_eq_iff.mp (h.toOption_findFactory factory) with ⟨_, _, hfault, -⟩ | hsame
    · cases ht.symm.trans hfault
    · exact hsame
  · exact ⟨_, _, Issue.collect_of_display (display_of_capture hcapture path),
      Issue.collect_of_display (display_of_capture hcapture' path), h.perm_issues path⟩

/-- Categories within each other, with nodes that share ids, names and factories; one node follows
itself. -/
def Container.stacked : Container where
  entries :=
    [.category { id := "a", name := "A" } true
      [.category { id := "w", name := "W" } true
        [.template (.node { id := "x", name := "X", factory := "f" }),
          .template (.node { id := "y", name := "X", after := "x", factory := "g" })],
        .template (.node { id := "w", name := "W", after := "w", factory := "g" })],
      .template (.node { id := "a", name := "A", factory := "f" })]

/-- The same in another order, at each level. -/
def Container.restacked : Container where
  entries :=
    [.template (.node { id := "a", name := "A", factory := "f" }),
      .category { id := "a", name := "A" } true
        [.template (.node { id := "w", name := "W", after := "w", factory := "g" }),
          .category { id := "w", name := "W" } true
            [.template (.node { id := "y", name := "X", after := "x", factory := "g" }),
              .template (.node { id := "x", name := "X", factory := "f" })]]]

theorem shown_alike_of_shuffled_stacked :
    stacked.Shuffled restacked ∧
      ∃ s, capture stacked = .ok s ∧ capture restacked = .ok s ∧
        (∀ factory, ∃ t, stacked.findFactory factory = .ok t ∧
          restacked.findFactory factory = .ok t) ∧
        ∀ path, ∃ issues issues', stacked.issues path = (issues, none) ∧
          restacked.issues path = (issues', none) ∧ issues.Perm issues' := by
  have hshuffled : stacked.Shuffled restacked := by
    refine ⟨rfl, rfl, .trans (.inside [] _ [_] ?_) (.perm (.swap _ _ []))⟩
    exact .trans (.inside [] _ [_] (.perm (.swap _ _ []))) (.perm (.swap _ _ []))
  refine ⟨hshuffled, (shown_alike_of_shuffled hshuffled).resolve_left ?_⟩
  rintro ⟨fault, fault', h, -⟩
  have hcapture : (capture stacked).toOption.isSome = true := by decide +kernel
  rw [h] at hcapture
  cases hcapture

end NodeCatalog
