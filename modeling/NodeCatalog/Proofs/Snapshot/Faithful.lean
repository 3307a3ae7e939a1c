import NodeCatalog.Proofs.Container.Apart
import NodeCatalog.Proofs.Container.Flags

/-!
# Snapshots mirror trees

A snapshot has one node for each entry of the tree that it is taken of.  Equal entries may repeat
where a container does not sort, so entries are told apart by their positions: a container is
arranged together with the positions of its entries (`Container.numbered`), each position is shown
by one node, and a node is flagged if its position is among the problems.  `Snapshot.Mirrors` says
this of a container and, through the categories, of all containers below.

A walk keeps the nodes that are still to be listed on a stack.  It lists what the recursion over the
nodes lists, a node before those below it (`Snapshot.walk_eq`), and so it tells of every entry once,
with the number of categories around it (`Snapshot.faithful_of_capture`).
-/

namespace NodeCatalog

open Container Snapshot

/-- What is shown of an entry by itself. -/
structure Face where
  id : String
  name : String
  /-- The word for what the entry is. -/
  kind : String
  /-- The factory of a node template. -/
  factory : Option String
deriving DecidableEq

/-- What is to be shown of an entry. -/
def Entry.face (e : Entry) : Face :=
  ⟨e.id, e.name, e.label, e.node?.map fun t => t.factory⟩

theorem Entry.walkAll_eq_flatMap (depth : Nat) (es : List Entry) :
    walkAll depth es = es.flatMap fun e => e.walk depth := by
  induction es with
  | nil => rfl
  | cons e es ih => rw [walkAll, ih, List.flatMap_cons]

/-- What a node shows. -/
def Snapshot.Node.face (n : Node) : Face :=
  ⟨n.id, n.name, n.kind, n.factory⟩

/-! ### Positions -/

namespace Container

variable {k : Container} {shown : After.Ordered (Entry × Nat)}

/-- The entries as they are shown, each with its position. -/
def numbered (k : Container) : Except Fault (After.Ordered (Entry × Nat)) :=
  arrange Prod.fst k.sorted k.entries.zipIdx

/-- What is shown does not depend on the positions. -/
theorem display_of_numbered (h : k.numbered = .ok shown) :
    k.display = .ok (shown.map Prod.fst) := by
  have hmap := display_map Prod.fst k.sorted k.entries.zipIdx
  rw [List.zipIdx_map_fst] at hmap
  change k.display = k.numbered.map _ at hmap
  rw [hmap, h]
  rfl

/-- Every position is shown once. -/
theorem perm_of_numbered (h : k.numbered = .ok shown) : shown.items.Perm k.entries.zipIdx :=
  perm_of_arrange h

/-- The problems are among what is shown. -/
theorem mem_zipIdx_of_problem (h : k.numbered = .ok shown) {p : Entry × Nat}
    (hp : p ∈ shown.problems) : p ∈ k.entries.zipIdx := by
  unfold numbered arrange at h
  split at h
  · exact (((After.problems_of_order (eq_ok_of_mapError h)).2 p).mp hp).1
  · obtain rfl := Except.ok.inj h
    exact absurd hp List.not_mem_nil

/-- A container that sorts and can be shown holds no entry twice. -/
theorem nodup_entries (hsorted : k.sorted = true) {out : After.Ordered Entry}
    (h : k.display = .ok out) : k.entries.Nodup :=
  .of_map Entry.key (exists_display_iff_nodup.mp ⟨out, h⟩ hsorted)

/-- Only a problem has the key of a problem, and it stands at its position. -/
theorem any_clashes_numbered_iff (h : k.numbered = .ok shown) {p : Entry × Nat}
    (hp : p ∈ shown.items) :
    (shown.problems.any fun q => q.1.clashes p.1) = true ↔ p ∈ shown.problems := by
  have hdisplay := display_of_numbered h
  have hvalue := any_clashes_iff hdisplay (List.mem_map_of_mem (f := Prod.fst) hp)
  rw [After.Ordered.map, List.any_map] at hvalue
  refine hvalue.trans ⟨fun hmem => ?_, fun hmem => List.mem_map_of_mem hmem⟩
  obtain ⟨q, hq, heq⟩ := List.mem_map.mp hmem
  cases hsorted : k.sorted with
  | false =>
    have hnil := problems_eq_nil hsorted hdisplay
    rw [List.map_eq_nil_iff.mp hnil] at hq
    exact absurd hq List.not_mem_nil
  | true =>
    -- the two positions hold one entry, and so they are the same
    have hpos := List.mem_zipIdx_iff_getElem?.mp ((perm_of_numbered h).mem_iff.mp hp)
    have hpos' := List.mem_zipIdx_iff_getElem?.mp (mem_zipIdx_of_problem h hq)
    rw [heq] at hpos'
    have hlt := (List.getElem?_eq_some_iff.mp hpos).1
    have hsame := (List.getElem?_inj hlt (nodup_entries hsorted hdisplay)).mp
      (hpos.trans hpos'.symm)
    obtain rfl : q = p := Prod.ext heq hsame.symm
    exact hq

end Container

/-! ### Nodes and entries -/

/-- Nodes mirror a container: one for each position, in the order in which the entries are shown,
flagged if the entry there is among the problems, with nodes below that mirror what it holds. -/
inductive Snapshot.Mirrors : Container → List Node → Prop where
  | mk {k : Container} {nodes : List Node} {shown : After.Ordered (Entry × Nat)}
    (numbered : k.numbered = .ok shown)
    (display : k.display = .ok (shown.map Prod.fst))
    (once : shown.items.Perm k.entries.zipIdx)
    (faces : List.Forall₂ (fun p n => n.face = p.1.face ∧ (n.problem = true ↔ p ∈ shown.problems))
      shown.items nodes)
    (inside : ∀ p n, (p, n) ∈ shown.items.zip nodes → ∀ inner, p.1.container? = some inner →
      Mirrors inner n.children)
    (leaves : ∀ p n, (p, n) ∈ shown.items.zip nodes → p.1.container? = none → n.children = []) :
    Mirrors k nodes

namespace Snapshot

/-- The nodes of a container show the positions one by one, each with the nodes of what the entry
holds. -/
theorem forall₂_numbered {k : Container} {nodes : List Node}
    (h : shownNodes k.sorted (nodesEach k.entries) = .ok nodes) :
    ∃ shown, k.numbered = .ok shown ∧ List.Forall₂ (fun p n =>
      (n.face = p.1.face ∧ (n.problem = true ↔ p ∈ shown.problems)) ∧
        nodesWithin p.1 = .ok n.children) shown.items nodes := by
  have hthings : nodesEach k.entries =
      k.entries.zipIdx.map fun p => (p.1, nodesWithin p.1) := by
    rw [nodesEach_eq_map]
    conv_lhs => rw [← List.zipIdx_map_fst 0 k.entries, List.map_map]
    rfl
  unfold shownNodes at h
  rw [hthings, arrange_map] at h
  obtain ⟨things, harrange, h⟩ := exists_of_bind_eq_ok h
  change k.numbered.map _ = _ at harrange
  cases hshown : k.numbered with
  | error fault =>
    rw [hshown] at harrange
    cases harrange
  | ok shown =>
    rw [hshown] at harrange
    obtain rfl := Except.ok.inj harrange
    refine ⟨shown, rfl, ?_⟩
    have hnodes := (List.forall₂_and_left _ _).mpr
      ⟨fun p (hp : p ∈ shown.items) => hp,
        List.forall₂_map_left_iff.mp (forall₂_of_mapM_eq_ok h)⟩
    refine hnodes.imp ?_
    rintro p n ⟨hp, hn⟩
    obtain ⟨children, hchildren, hn⟩ := exists_of_bind_eq_ok hn
    obtain rfl := Except.ok.inj hn
    refine ⟨⟨rfl, ?_⟩, hchildren⟩
    rw [← any_clashes_numbered_iff hshown hp]
    exact Eq.congr_left (List.any_map)

/-- The nodes of a container mirror it if those of each category in it do. -/
theorem mirrors_of_inner {k : Container} {nodes : List Node}
    (h : shownNodes k.sorted (nodesEach k.entries) = .ok nodes)
    (hinner : ∀ e ∈ k.entries, ∀ inner, e.container? = some inner → ∀ ns,
      nodesWithin e = .ok ns → Mirrors inner ns) : Mirrors k nodes := by
  obtain ⟨shown, hshown, hnodes⟩ := forall₂_numbered h
  have hwithin : ∀ {p n}, (p, n) ∈ shown.items.zip nodes →
      p.1 ∈ k.entries ∧ nodesWithin p.1 = .ok n.children := by
    intro p n hmem
    have hp := (perm_of_numbered hshown).mem_iff.mp (List.of_mem_zip hmem).1
    exact ⟨List.mem_of_getElem? (List.mem_zipIdx_iff_getElem?.mp hp),
      (List.forall₂_zip hnodes hmem).2⟩
  refine .mk hshown (display_of_numbered hshown) (perm_of_numbered hshown)
    (hnodes.imp fun p n hn => hn.1) ?_ ?_
  · intro p n hmem inner hp
    exact hinner p.1 (hwithin hmem).1 inner hp n.children (hwithin hmem).2
  · rintro ⟨e, i⟩ n hmem hnone
    cases e with
    | category c sorted entries => cases hnone
    | template t => exact (Except.ok.inj (hwithin hmem).2).symm

theorem mirrors_of_shownNodes (k : Container) : ∀ nodes,
    shownNodes k.sorted (nodesEach k.entries) = .ok nodes → Mirrors k nodes := by
  induction k using Container.induction with
  | step k ih =>
    intro nodes h
    refine mirrors_of_inner h fun e he inner hinner ns hns => ih e he inner hinner ns ?_
    obtain ⟨c, rfl⟩ := Entry.container?_eq_some_iff.mp hinner
    exact hns

theorem mirrors_of_capture {k : Container} {s : Snapshot} (h : capture k = .ok s) :
    Mirrors k s.children :=
  mirrors_of_shownNodes k s.children (shownNodes_of_capture h)

/-! ### Walking -/

mutual

/-- A node and all below it, each with its depth, a node before those below it. -/
def Node.walk (depth : Nat) : Node → List (Nat × Node)
  | ⟨id, name, kind, factory, problem, children⟩ =>
    (depth, ⟨id, name, kind, factory, problem, children⟩) :: Node.walkAll (depth + 1) children

/-- The nodes of a list and all below them. -/
def Node.walkAll (depth : Nat) : List Node → List (Nat × Node)
  | [] => []
  | n :: ns => n.walk depth ++ Node.walkAll depth ns

end

theorem Node.walk_eq (depth : Nat) (n : Node) :
    n.walk depth = (depth, n) :: Node.walkAll (depth + 1) n.children := by
  cases n with
  | mk => rfl

theorem Node.walkAll_eq_flatMap (depth : Nat) (nodes : List Node) :
    Node.walkAll depth nodes = nodes.flatMap fun n => n.walk depth := by
  induction nodes with
  | nil => rfl
  | cons n ns ih => rw [Node.walkAll, ih, List.flatMap_cons]

/-- From a stack, all that is on it is walked, from the top down. -/
theorem walkFrom_eq (stack : List (Nat × Node)) :
    walkFrom stack = (stack.flatMap fun p => p.2.walk p.1).map fun p => (p.1, p.2.id) := by
  induction stack using walkFrom.induct with
  | case1 => rw [walkFrom]; rfl
  | case2 depth n stack ih =>
    -- the children on top stand for the part of the walk that is below the node
    have hchildren : (atDepth (depth + 1) n.children).flatMap (fun p => p.2.walk p.1) =
        Node.walkAll (depth + 1) n.children := by
      rw [atDepth, List.flatMap_map, Node.walkAll_eq_flatMap]
    rw [walkFrom, ih, List.flatMap_append, hchildren, List.flatMap_cons, Node.walk_eq]
    rfl

/-- A walk lists the nodes as the recursion does. -/
theorem walk_eq (s : Snapshot) :
    s.walk = (Node.walkAll 0 s.children).map fun p => (p.1, p.2.id) := by
  rw [walk, walkFrom_eq, atDepth, List.flatMap_map, Node.walkAll_eq_flatMap]

/-! ### The whole tree -/

/-- Nodes that mirror a container show its entries, and all below them, once and at their depth. -/
theorem Mirrors.perm_walkAll {k : Container} {nodes : List Node} (h : Mirrors k nodes)
    (depth : Nat) : ((Node.walkAll depth nodes).map fun p => (p.1, p.2.face)).Perm
      ((Entry.walkAll depth k.entries).map fun p => (p.1, p.2.face)) := by
  induction h generalizing depth with
  | @mk k nodes shown _ _ once faces _ leaves ih =>
    have hpair : ∀ q ∈ shown.items.zip nodes,
        ((q.2.walk depth).map fun p => (p.1, p.2.face)).Perm
          ((q.1.1.walk depth).map fun p => (p.1, p.2.face)) := by
      rintro ⟨⟨e, i⟩, n⟩ hmem
      have hface : n.face = e.face := (List.forall₂_zip faces hmem).1
      cases e with
      | category c sorted entries =>
        rw [Node.walk_eq, Entry.walk, List.map_cons, List.map_cons, hface]
        exact (ih _ n hmem ⟨sorted, entries⟩ rfl (depth + 1)).cons _
      | template t =>
        rw [Node.walk_eq, leaves _ n hmem rfl, Entry.walk, List.map_cons, List.map_cons, hface]
        rfl
    have hnodes : (shown.items.zip nodes).map Prod.snd = nodes :=
      List.map_snd_zip faces.length_eq.ge
    have hitems : (shown.items.zip nodes).map Prod.fst = shown.items :=
      List.map_fst_zip faces.length_eq.le
    have hentries : k.entries.zipIdx.map Prod.fst = k.entries := List.zipIdx_map_fst 0 k.entries
    calc (Node.walkAll depth nodes).map (fun p => (p.1, p.2.face))
      _ = (shown.items.zip nodes).flatMap
            fun q => (q.2.walk depth).map fun p => (p.1, p.2.face) := by
          rw [Node.walkAll_eq_flatMap, List.map_flatMap]
          conv_lhs => rw [← hnodes, List.flatMap_map]
      List.Perm _ ((shown.items.zip nodes).flatMap
            fun q => (q.1.1.walk depth).map fun p => (p.1, p.2.face)) :=
          List.Perm.flatMap_left _ hpair
      _ = shown.items.flatMap fun q => (q.1.walk depth).map fun p => (p.1, p.2.face) := by
          conv_rhs => rw [← hitems, List.flatMap_map]
      List.Perm _ (k.entries.zipIdx.flatMap
            fun q => (q.1.walk depth).map fun p => (p.1, p.2.face)) :=
          once.flatMap_right _
      _ = (Entry.walkAll depth k.entries).map fun p => (p.1, p.2.face) := by
          rw [Entry.walkAll_eq_flatMap, List.map_flatMap]
          conv_rhs => rw [← hentries, List.flatMap_map]

/-- A snapshot shows a tree faithfully. -/
structure Faithful (s : Snapshot) (k : Container) : Prop where
  /-- Each container is mirrored by the nodes below the one that shows its category. -/
  mirrors : Mirrors k s.children
  /-- The nodes show all entries, each once, and with the number of categories around it. -/
  all : ((Node.walkAll 0 s.children).map fun p => (p.1, p.2.face)).Perm
    ((Entry.walkAll 0 k.entries).map fun p => (p.1, p.2.face))
  /-- A walk lists the nodes, each before those below it. -/
  walk : s.walk = (Node.walkAll 0 s.children).map fun p => (p.1, p.2.id)

/-- Whatever tree is captured, its snapshot is faithful. -/
theorem faithful_of_capture {k : Container} {s : Snapshot} (h : capture k = .ok s) :
    s.Faithful k :=
  ⟨mirrors_of_capture h, (mirrors_of_capture h).perm_walkAll 0, walk_eq s⟩

/-- A root that does not sort and holds one node twice, and a category that sorts and holds a
category and two nodes, one of which has its id and follows itself. -/
def doubled : Container where
  sorted := false
  entries :=
    [.template (.node { id := "x", name := "X", factory := "f" }),
      .category { id := "a", name := "A" } true
        [.template (.node { id := "y", name := "Y", after := "y", factory := "g" }),
          .template (.metaNode { id := "z", name := "Z", directory := "d" }),
          .category { id := "y", name := "Y" } true []],
      .template (.node { id := "x", name := "X", factory := "f" })]

theorem faithful_of_capture_doubled : ∃ s, capture doubled = .ok s ∧
    s.walk = [(0, "x"), (0, "a"), (1, "y"), (1, "z"), (1, "y"), (0, "x")] ∧
      s.Faithful doubled := by
  have hwalk : (capture doubled).toOption.map
      (fun s => (Node.walkAll 0 s.children).map fun p => (p.1, p.2.id)) =
      some [(0, "x"), (0, "a"), (1, "y"), (1, "z"), (1, "y"), (0, "x")] := by
    cbv
  cases h : capture doubled with
  | error fault =>
    rw [h] at hwalk
    cases hwalk
  | ok s =>
    rw [h] at hwalk
    exact ⟨s, rfl, (walk_eq s).trans (Option.some.inj hwalk), faithful_of_capture h⟩

end Snapshot

end NodeCatalog
