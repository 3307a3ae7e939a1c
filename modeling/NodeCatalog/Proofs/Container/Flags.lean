import Mathlib.Algebra.BigOperators.Group.List.Basic
import Mathlib.Algebra.Ring.Nat
import Mathlib.Data.List.Forall2
import NodeCatalog.Proofs.Container.Diagnosis
import NodeCatalog.Proofs.Container.Trace

/-!
# Flags in snapshots

The nodes of a snapshot show the entries of a container one by one, and a node is flagged exactly if
its entry is among the problems (`Snapshot.forall₂_shows_of_shownNodes`).  So the flagged nodes show
the problems, in their order, and counted over the whole tree there are as many flags as there are
problems in all containers (`Snapshot.countFlags_eq_sum`).

`Snapshot.Shows` ties each container of a tree to the list of nodes that shows it.
-/

namespace NodeCatalog

open Container Snapshot

/-! ### Sequences of answers -/

section Answers

variable {α : Type u} {β : Type v}

/-- Where all members of a list are answered, the answers are those of the members, one by one. -/
theorem forall₂_of_mapM_eq_ok {f : α → Except Fault β} {as : List α} {bs : List β}
    (h : as.mapM f = .ok bs) : List.Forall₂ (fun a b => f a = .ok b) as bs := by
  induction as generalizing bs with
  | nil =>
    obtain rfl := Except.ok.inj h
    exact .nil
  | cons a as ih =>
    rw [List.mapM_cons] at h
    obtain ⟨b, hb, h⟩ := exists_of_bind_eq_ok h
    obtain ⟨cs, hcs, h⟩ := exists_of_bind_eq_ok h
    obtain rfl := Except.ok.inj h
    exact .cons hb (ih hcs)

/-- Where each member of a list is answered, all are. -/
theorem mapM_eq_ok {f : α → Except Fault β} {g : α → β} {as : List α}
    (h : ∀ a ∈ as, f a = .ok (g a)) : as.mapM f = .ok (as.map g) := by
  induction as with
  | nil => rfl
  | cons a as ih =>
    rw [List.mapM_cons, h a List.mem_cons_self, ih fun b hb => h b (List.mem_cons_of_mem _ hb)]
    rfl

end Answers

/-! ### Problems of a container -/

namespace Container

/-- The entries of a container that could not be placed; none if it cannot be shown. -/
def problems (k : Container) : List Entry :=
  match k.display with
  | .error _ => []
  | .ok shown => shown.problems

variable {k : Container} {shown : After.Ordered Entry}

theorem problems_eq (h : k.display = .ok shown) : k.problems = shown.problems := by
  rw [problems, h]

/-- A container that does not sort has no problems. -/
theorem problems_eq_nil (hsorted : k.sorted = false) (h : k.display = .ok shown) :
    shown.problems = [] := by
  unfold display arrange at h
  rw [if_neg (Bool.not_eq_true _ ▸ hsorted)] at h
  obtain rfl := Except.ok.inj h
  rfl

/-- Only a problem has the key of a problem. -/
theorem any_clashes_iff (h : k.display = .ok shown) {e : Entry} (he : e ∈ shown.items) :
    (shown.problems.any fun q => q.clashes e) = true ↔ e ∈ shown.problems := by
  rw [List.any_eq_true]
  constructor
  · rintro ⟨q, hq, hclash⟩
    cases hsorted : k.sorted with
    | false =>
      rw [problems_eq_nil hsorted h] at hq
      exact absurd hq List.not_mem_nil
    | true =>
      have horder := order_of_display hsorted h
      have hq_mem := (((After.problems_of_order horder).2 q).mp hq).1
      have he_mem := (After.perm_of_order horder).mem_iff.mp he
      obtain ⟨hid, hkind⟩ := Prod.mk.inj (Entry.clashes_iff.mp hclash)
      have hqe : q = e := List.inj_on_of_nodup_map (Issue.ids_nodup hsorted h e.kind)
        (Entry.mem_ofKind.mpr ⟨hq_mem, hkind⟩) (Entry.mem_ofKind.mpr ⟨he_mem, rfl⟩) hid
      exact hqe ▸ hq
  · exact fun he => ⟨e, he, Entry.clashes_iff.mpr rfl⟩

/-- The problems stand in their order among all that is shown. -/
theorem filter_problems (h : k.display = .ok shown) {p : Entry → Bool}
    (hp : ∀ e, p e = true ↔ e ∈ shown.problems) : shown.items.filter p = shown.problems := by
  cases hsorted : k.sorted with
  | false =>
    have hnil := problems_eq_nil hsorted h
    rw [hnil, List.filter_eq_nil_iff]
    intro e _ htrue
    rw [hp, hnil] at htrue
    exact absurd htrue List.not_mem_nil
  | true => exact After.filter_problems_of_order (order_of_display hsorted h) hp

end Container

/-! ### Nodes of one container -/

namespace Snapshot

/-- A node shows an entry: it is made of it, and has the nodes of what it holds below. -/
def Node.Shows (n : Node) (e : Entry) : Prop :=
  n = .ofEntry e n.problem n.children ∧ nodesWithin e = .ok n.children

/-- The nodes of a container show its entries in their order, flagged where an entry is among the
problems. -/
theorem forall₂_shows_of_shownNodes {sorted : Bool} {es : List Entry} {nodes : List Node}
    (h : shownNodes sorted (nodesEach es) = .ok nodes) :
    ∃ shown, display ⟨sorted, es⟩ = .ok shown ∧ List.Forall₂ (fun e n =>
      Node.Shows n e ∧ (n.problem = true ↔ e ∈ shown.problems)) shown.items nodes := by
  rw [nodesEach_eq_map] at h
  unfold shownNodes at h
  obtain ⟨shown, harrange, h⟩ := exists_of_bind_eq_ok h
  have hdisplay : display ⟨sorted, es⟩ = .ok (shown.map Prod.fst) := by
    have hmap := display_map Prod.fst sorted (es.map fun e => (e, nodesWithin e))
    rw [List.map_map, Function.comp_def, List.map_id', harrange] at hmap
    exact hmap
  refine ⟨shown.map Prod.fst, hdisplay, List.forall₂_map_left_iff.mpr ?_⟩
  have hinner : ∀ p ∈ shown.items, p.2 = nodesWithin p.1 := by
    intro p hp
    obtain ⟨e, -, rfl⟩ := List.mem_map.mp ((perm_of_arrange harrange).mem_iff.mp hp)
    rfl
  have hflag : ∀ p ∈ shown.items, (shown.problems.any fun q => q.1.clashes p.1) = true ↔
      p.1 ∈ (shown.map Prod.fst).problems := by
    intro p hp
    rw [← any_clashes_iff hdisplay (List.mem_map_of_mem hp), After.Ordered.map, List.any_map]
    rfl
  have hboth := (List.forall₂_and_left _ _).mpr
    ⟨fun p hp => And.intro (hinner p hp) (hflag p hp), forall₂_of_mapM_eq_ok h⟩
  refine hboth.imp ?_
  rintro p n ⟨⟨hp, hp'⟩, hn⟩
  obtain ⟨children, hchildren, hn⟩ := exists_of_bind_eq_ok hn
  obtain rfl := Except.ok.inj hn
  exact ⟨⟨rfl, hp ▸ hchildren⟩, hp'⟩

/-- The flagged nodes of a container show its problems, in their order. -/
theorem forall₂_filter_problem {k : Container} {shown : After.Ordered Entry} {nodes : List Node}
    (h : k.display = .ok shown) (hnodes : List.Forall₂ (fun e n =>
      Node.Shows n e ∧ (n.problem = true ↔ e ∈ shown.problems)) shown.items nodes) :
    List.Forall₂ (fun e n => Node.Shows n e) shown.problems
      (nodes.filter fun n => n.problem) := by
  classical
  rw [← filter_problems h (p := fun e => decide (e ∈ shown.problems)) fun e => decide_eq_true_iff]
  refine (List.rel_filter (fun e n hn => ?_) hnodes).imp fun e n hn => hn.1
  exact decide_eq_true_iff.trans hn.2.symm

/-! ### Flags of a whole tree -/

mutual

/-- A node and all below it, a node before those below it. -/
def listedNode : Node → List Node
  | ⟨id, name, kind, factory, problem, children⟩ =>
    ⟨id, name, kind, factory, problem, children⟩ :: listedNodes children

/-- The nodes of a list and all below them. -/
def listedNodes : List Node → List Node
  | [] => []
  | n :: ns => listedNode n ++ listedNodes ns

end

/-- How many nodes are flagged among some nodes and all below them. -/
def countFlags (nodes : List Node) : Nat :=
  (listedNodes nodes).countP fun n => n.problem

/-- The flags of some nodes are their own and those below each of them. -/
theorem countFlags_eq (nodes : List Node) :
    countFlags nodes =
      (nodes.filter fun n => n.problem).length + (nodes.map fun n => countFlags n.children).sum := by
  induction nodes with
  | nil => rfl
  | cons n ns ih =>
    obtain ⟨id, name, kind, factory, problem, children⟩ := n
    rw [← List.countP_eq_length_filter] at ih ⊢
    rw [countFlags, listedNodes, listedNode, List.countP_append, List.countP_cons, List.countP_cons,
      List.map_cons, List.sum_cons, ← countFlags, ← countFlags, ih]
    dsimp only
    omega

/-- The flags of the nodes of what an entry holds. -/
def flagsWithin (e : Entry) : Nat :=
  match nodesWithin e with
  | .error _ => 0
  | .ok nodes => countFlags nodes

theorem flagsWithin_eq {e : Entry} {nodes : List Node} (h : nodesWithin e = .ok nodes) :
    flagsWithin e = countFlags nodes := by
  rw [flagsWithin, h]

/-- The flags of a container are its problems and the flags of what its entries hold. -/
theorem countFlags_of_shownNodes {sorted : Bool} {es : List Entry} {nodes : List Node}
    (h : shownNodes sorted (nodesEach es) = .ok nodes) :
    countFlags nodes = (problems ⟨sorted, es⟩).length + (es.map flagsWithin).sum := by
  obtain ⟨shown, hdisplay, hnodes⟩ := forall₂_shows_of_shownNodes h
  have hlength := (forall₂_filter_problem hdisplay hnodes).length_eq
  have hbelow : shown.items.map flagsWithin = nodes.map fun n => countFlags n.children := by
    rw [← List.forall₂_eq_eq_eq, List.forall₂_map_left_iff, List.forall₂_map_right_iff]
    exact hnodes.imp fun e n hn => flagsWithin_eq hn.1.2
  have hperm := (perm_of_arrange hdisplay).map flagsWithin
  rw [countFlags_eq, ← hlength, ← hbelow, hperm.sum_nat, problems_eq hdisplay]

/-- Over a whole tree there are as many flags as there are problems in all containers. -/
theorem sum_flagsWithin {es : List Entry} (h : ∀ e ∈ es, ∃ nodes, nodesWithin e = .ok nodes)
    (path : String) : (es.map flagsWithin).sum =
      ((containersDeep path es).map fun p => p.2.problems.length).sum := by
  induction es using Entry.forest_induction generalizing path with
  | nil => rfl
  | category c sorted entries rest ihe ihr =>
    obtain ⟨nodes, hnodes⟩ := h _ List.mem_cons_self
    have hrest := ihr (fun e he => h e (List.mem_cons_of_mem _ he)) path
    have hinner := ihe (exists_of_shownNodes hnodes).2 (Path.join path c.id)
    have hcategory : nodesWithin (.category c sorted entries) = .ok nodes := hnodes
    rw [List.map_cons, List.sum_cons, flagsWithin_eq hcategory, countFlags_of_shownNodes hnodes,
      hinner, hrest, containersDeep, containersWithin, List.map_append, List.sum_append,
      List.map_cons, List.sum_cons]
  | template t rest ihr =>
    have hrest := ihr (fun e he => h e (List.mem_cons_of_mem _ he)) path
    have hnone : flagsWithin (.template t) = 0 := rfl
    rw [List.map_cons, List.sum_cons, hrest, hnone, Nat.zero_add, containersDeep, containersWithin,
      List.nil_append]

theorem countFlags_eq_sum {k : Container} {s : Snapshot} (h : capture k = .ok s) (path : String) :
    countFlags s.children = ((k.containers path).map fun p => p.2.problems.length).sum := by
  rw [countFlags_of_shownNodes (shownNodes_of_capture h),
    sum_flagsWithin (exists_of_capture h).2 path, containers, List.map_cons, List.sum_cons]

/-! ### Which nodes show a container -/

/-- The nodes that show the containers of a tree, each with its path. -/
inductive Shows (root : Container) (s : Snapshot) : String → Container → List Node → Prop where
  | root : Shows root s Path.root root s.children
  /-- What a category holds is shown by the nodes below the one that shows the category. -/
  | inside {path : String} {k inner : Container} {nodes : List Node} {shown : After.Ordered Entry}
      {e : Entry} {n : Node} : Shows root s path k nodes → k.display = .ok shown →
      (e, n) ∈ shown.items.zip nodes → e.container? = some inner →
      Shows root s (Path.join path e.id) inner n.children

/-- The nodes that show a container are those it is captured as. -/
theorem Shows.shownNodes_eq {root : Container} {s : Snapshot} (h : capture root = .ok s)
    {path : String} {k : Container} {nodes : List Node} (hshows : s.Shows root path k nodes) :
    shownNodes k.sorted (nodesEach k.entries) = .ok nodes := by
  induction hshows with
  | root => exact shownNodes_of_capture h
  | inside _ hdisplay hmem hinner ih =>
    obtain ⟨shown, hdisplay', hnodes⟩ := forall₂_shows_of_shownNodes ih
    obtain rfl := Except.ok.inj (hdisplay.symm.trans hdisplay')
    have hwithin := (List.forall₂_zip hnodes hmem).1.2
    obtain ⟨c, rfl⟩ := Entry.container?_eq_some_iff.mp hinner
    exact hwithin

/-- What a category of a container that is shown holds is shown, too. -/
theorem Shows.exists_inside {root : Container} {s : Snapshot} (h : capture root = .ok s)
    {path : String} {k inner : Container} {nodes : List Node} (hshows : s.Shows root path k nodes)
    {e : Entry} (he : e ∈ k.entries) (hinner : e.container? = some inner) :
    ∃ nodes, s.Shows root (Path.join path e.id) inner nodes := by
  obtain ⟨shown, hdisplay, hnodes⟩ := forall₂_shows_of_shownNodes (hshows.shownNodes_eq h)
  have hzip : e ∈ (shown.items.zip nodes).map Prod.fst := by
    rw [List.map_fst_zip hnodes.length_eq.le]
    exact (perm_of_arrange hdisplay).mem_iff.mpr he
  obtain ⟨⟨e, n⟩, hmem, rfl⟩ := List.mem_map.mp hzip
  exact ⟨_, .inside hshows hdisplay hmem hinner⟩

/-- Each container of a tree that is captured is shown by some nodes. -/
theorem exists_shows {root : Container} {s : Snapshot} (h : capture root = .ok s) :
    ∀ p ∈ root.containers Path.root, ∃ nodes, s.Shows root p.1 p.2 nodes := by
  have hdeep : ∀ es path, (∀ e ∈ es, ∀ inner, e.container? = some inner →
      ∃ nodes, s.Shows root (Path.join path e.id) inner nodes) →
      ∀ p ∈ containersDeep path es, ∃ nodes, s.Shows root p.1 p.2 nodes := by
    intro es
    induction es using Entry.forest_induction with
    | nil => exact fun _ _ p hp => absurd hp List.not_mem_nil
    | category c sorted entries rest ihe ihr =>
      intro path hes p hp
      obtain ⟨nodes, hshows⟩ := hes _ List.mem_cons_self ⟨sorted, entries⟩ rfl
      rcases List.mem_append.mp hp with hp | hp
      · rcases List.mem_cons.mp hp with rfl | hp
        · exact ⟨nodes, hshows⟩
        · exact ihe _ (fun e he inner hinner => hshows.exists_inside h he hinner) p hp
      · exact ihr path (fun e he => hes e (List.mem_cons_of_mem _ he)) p hp
    | template t rest ihr =>
      intro path hes p hp
      exact ihr path (fun e he => hes e (List.mem_cons_of_mem _ he)) p hp
  intro p hp
  rcases List.mem_cons.mp hp with rfl | hp
  · exact ⟨_, .root⟩
  · exact hdeep _ _ (fun e he inner hinner => Shows.root.exists_inside h he hinner) p hp

end Snapshot

end NodeCatalog
