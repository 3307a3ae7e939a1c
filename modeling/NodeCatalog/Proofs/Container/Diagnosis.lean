import Mathlib.Data.List.Permutation
import Mathlib.Data.Set.Finite.List
import Mathlib.Logic.Function.Iterate
import Mathlib.Order.Preorder.Finite
import NodeCatalog.Proofs.Container.Issues

/-!
# Why an entry could not be placed

The search for a cycle goes from id to id and stops at the first that it has seen.  It finds the way
back wherever there is one (`leadsBack_iff`): on the shortest way back, all that is seen is further
from its end than the id that comes next, so that none is met again.

`Leads siblings n e x` says that the ids that entries follow lead from `e` to `x` in `n` steps, each
to a sibling of the same kind.  As such siblings do not share ids, these are the ways of the search
(`walk_eq_some_iff`), and there is one way to go (`Leads.iterate_eq`).

What follows a sibling that could not be placed could not be placed either, and the other way round
(`mem_problems_of_after`).  The siblings are finite, so from a blocked entry the way ends at an
unknown id or comes to a cycle, and the entry found there is not blocked
(`exists_leads_not_blocked`).  So the issues that a container emits are what their causes are called
(`Diagnosis`).
-/

namespace NodeCatalog

open Container

/-! ### Ways from sibling to sibling -/

/-- The ids that entries follow lead from an entry to another in some steps, each to a sibling of
the same kind. -/
inductive Entry.Leads (siblings : List Entry) : Nat → Entry → Entry → Prop where
  | here (e : Entry) : Leads siblings 0 e e
  | next {n : Nat} {e t x : Entry} : t ∈ siblings → t.kind = e.kind → e.after = t.id →
      Leads siblings n t x → Leads siblings (n + 1) e x

/-- The sibling of the same kind that an entry follows; the entry itself if there is none. -/
def Entry.target (siblings : List Entry) (e : Entry) : Entry :=
  ((Entry.view.ofKind e.kind siblings).find? fun x => x.id == e.after).getD e

theorem Entry.mem_ofKind {siblings : List Entry} {kind : After.Kind} {e : Entry} :
    e ∈ Entry.view.ofKind kind siblings ↔ e ∈ siblings ∧ e.kind = kind :=
  After.View.mem_ofKind

namespace Entry.Leads

variable {siblings : List Entry} {n : Nat} {e x : Entry}

theorem mem (h : Leads siblings n e x) (he : e ∈ siblings) : x ∈ siblings := by
  induction h with
  | here e => exact he
  | next ht _ _ _ ih => exact ih ht

theorem one {t : Entry} (ht : t ∈ siblings) (hkind : t.kind = e.kind) (hafter : e.after = t.id) :
    Leads siblings 1 e t :=
  .next ht hkind hafter (.here t)

theorem trans {m : Nat} {y : Entry} (h : Leads siblings n e x) (h' : Leads siblings m x y) :
    Leads siblings (m + n) e y := by
  induction h with
  | here e => exact h'
  | next ht hkind hafter _ ih => exact .next ht hkind hafter (ih h')

/-- A way that takes a step follows a sibling. -/
theorem exists_target (h : Leads siblings n e x) (hn : 0 < n) :
    ∃ t ∈ siblings, t.kind = e.kind ∧ t.id = e.after := by
  cases h with
  | here => exact absurd hn (Nat.lt_irrefl 0)
  | next ht hkind hafter _ => exact ⟨_, ht, hkind, hafter.symm⟩

/-- An entry that follows itself comes back in one step, one that comes back otherwise takes more. -/
theorem exists_two_le_iff (hne : e.after ≠ e.id) :
    (∃ n, 2 ≤ n ∧ Leads siblings n e e) ↔ ∃ n, 0 < n ∧ Leads siblings n e e := by
  constructor
  · rintro ⟨n, hn, hlead⟩
    exact ⟨n, Nat.zero_lt_of_lt hn, hlead⟩
  · rintro ⟨n, hn, hlead⟩
    cases hlead with
    | here => exact absurd hn (Nat.lt_irrefl 0)
    | @next n _ t _ ht hkind hafter hlead =>
      cases n with
      | zero =>
        cases hlead
        exact absurd hafter hne
      | succ n => exact ⟨n + 2, Nat.le_add_left 2 n, .next ht hkind hafter hlead⟩

variable (hids : ∀ kind, ((Entry.view.ofKind kind siblings).map Entry.id).Nodup)

include hids

theorem target_eq {t : Entry} (ht : t ∈ siblings) (hkind : t.kind = e.kind)
    (hafter : e.after = t.id) : e.target siblings = t := by
  have hfind := (Issue.find?_eq_some_iff_of_nodup (hids e.kind)).mpr
    ⟨mem_ofKind.mpr ⟨ht, hkind⟩, hafter.symm⟩
  rw [target, hfind, Option.getD_some]

/-- There is one way to go. -/
theorem iterate_eq (h : Leads siblings n e x) : (target siblings)^[n] e = x := by
  induction h with
  | here e => rfl
  | next ht hkind hafter _ ih => rw [Function.iterate_succ_apply, target_eq hids ht hkind hafter, ih]

end Entry.Leads

open Entry

namespace Issue

/-! ### The way back -/

/-- The id that an id leads to in some steps. -/
def walk (group : List Entry) : Nat → String → Option String
  | 0, id => some id
  | n + 1, id => (next group id).bind (walk group n)

section Search

variable {group : List Entry} {start current : String} {seen : List String}

theorem next_of_mem (hids : (group.map Entry.id).Nodup) {t : Entry} (ht : t ∈ group) :
    next group t.id = some t.after := by
  rw [next, (find?_eq_some_iff_of_nodup hids).mpr ⟨ht, rfl⟩, Option.map_some]

theorem next_eq_none_iff {id : String} : next group id = none ↔ ∀ t ∈ group, t.id ≠ id := by
  simp [next]

/-- An id that leads to that of an entry is that of an entry. -/
theorem exists_of_walk {n : Nat} {id : String} {e : Entry} (he : e ∈ group)
    (h : walk group n id = some e.id) : ∃ t ∈ group, t.id = id := by
  cases n with
  | zero => exact ⟨e, he, (Option.some.inj h).symm⟩
  | succ n =>
    by_contra hnone
    push Not at hnone
    rw [walk, next_eq_none_iff.mpr hnone] at h
    cases h

theorem exists_walk_of_leadsBack (h : leadsBack group start seen current = true) :
    ∃ n, walk group (n + 1) current = some start := by
  fun_induction leadsBack group start seen current with
  | case1 => cases h
  | case2 seen current hnext => exact ⟨0, by rw [walk, hnext, Option.bind_some, walk]⟩
  | case3 => cases h
  | case4 seen current id hnext _ _ ih =>
    obtain ⟨n, hn⟩ := ih h
    exact ⟨n + 1, by rw [walk, hnext, Option.bind_some, hn]⟩

/-- A way that comes to the start is found, if neither it nor what is seen comes there sooner. -/
theorem leadsBack_of_walk {n : Nat} (hwalk : walk group (n + 1) current = some start)
    (hfirst : ∀ id ∈ current :: seen, ∀ m < n, walk group (m + 1) id ≠ some start) :
    leadsBack group start seen current = true := by
  induction n generalizing current seen with
  | zero =>
    obtain ⟨id, hnext, hid⟩ := Option.bind_eq_some_iff.mp hwalk
    rw [leadsBack_eq, hnext]
    exact if_pos (Option.some.inj hid)
  | succ n ih =>
    obtain ⟨id, hnext, hwalk⟩ := Option.bind_eq_some_iff.mp hwalk
    have hne : id ≠ start := by
      rintro rfl
      refine hfirst current List.mem_cons_self 0 (Nat.succ_pos n) ?_
      rw [walk, hnext, Option.bind_some, walk]
    have hfresh : id ∉ seen := fun hseen =>
      hfirst id (List.mem_cons_of_mem _ hseen) n (Nat.lt_succ_self n) hwalk
    rw [leadsBack_eq, hnext]
    refine (if_neg hne).trans ((if_neg hfresh).trans (ih hwalk fun x hx m hm => ?_))
    have hx : x = id ∨ x ∈ seen := by simpa using hx
    rcases hx with rfl | hx
    · -- from an id it takes one step more than from the next
      intro hback
      refine hfirst current List.mem_cons_self (m + 1) (Nat.succ_lt_succ hm) ?_
      rw [walk, hnext, Option.bind_some, hback]
    · exact hfirst x (List.mem_cons_of_mem _ hx) m (Nat.lt_succ_of_lt hm)

/-- The search answers whether some positive number of steps leads back. -/
theorem leadsBack_iff :
    leadsBack group start [] start = true ↔ ∃ n, walk group (n + 1) start = some start := by
  constructor
  · exact exists_walk_of_leadsBack
  · intro h
    refine leadsBack_of_walk (Nat.find_spec h) fun id hid m hm => ?_
    obtain rfl := List.mem_singleton.mp hid
    exact Nat.find_min h hm

end Search

/-! ### Causes -/

variable {siblings : List Entry} {e : Entry}

theorem causeOf_eq_selfReference_iff : causeOf siblings e = .selfReference ↔ e.after = e.id := by
  unfold causeOf
  dsimp only
  split_ifs <;> simp [*]

/-- No sibling of its kind has the id that an entry follows. -/
theorem next_after_eq_none_iff :
    next (Entry.view.ofKind e.kind siblings) e.after = none ↔
      ∀ t ∈ siblings, t.kind = e.kind → t.id ≠ e.after := by
  simp only [next_eq_none_iff, mem_ofKind, and_imp]

theorem causeOf_eq_missingTarget_iff : causeOf siblings e = .missingTarget ↔
    e.after ≠ e.id ∧ ∀ t ∈ siblings, t.kind = e.kind → t.id ≠ e.after := by
  rw [← next_after_eq_none_iff]
  unfold causeOf
  dsimp only
  split_ifs <;> simp [*]

variable (hids : ∀ kind, ((Entry.view.ofKind kind siblings).map Entry.id).Nodup)

include hids

/-- The search follows the ways from sibling to sibling. -/
theorem walk_eq_some_iff (he : e ∈ siblings) {x : Entry} (hx : x ∈ siblings)
    (hkind : x.kind = e.kind) {n : Nat} :
    walk (Entry.view.ofKind e.kind siblings) n x.id = some e.id ↔ Leads siblings n x e := by
  have hgroup {t : Entry} (ht : t ∈ siblings) (htkind : t.kind = e.kind) :
      t ∈ Entry.view.ofKind e.kind siblings := mem_ofKind.mpr ⟨ht, htkind⟩
  induction n generalizing x with
  | zero =>
    constructor
    · intro h
      rw [List.inj_on_of_nodup_map (hids _) (hgroup hx hkind) (hgroup he rfl) (Option.some.inj h)]
      exact .here e
    · intro h
      cases h
      rfl
  | succ n ih =>
    rw [walk, next_of_mem (hids _) (hgroup hx hkind), Option.bind_some]
    constructor
    · intro h
      obtain ⟨t, ht, hid⟩ := exists_of_walk (hgroup he rfl) h
      obtain ⟨ht, htkind⟩ := mem_ofKind.mp ht
      rw [← hid] at h
      exact .next ht (htkind.trans hkind.symm) hid.symm ((ih ht htkind).mp h)
    · intro h
      cases h with
      | next ht htkind hafter hlead =>
        rw [hafter]
        exact (ih ht (htkind.trans hkind)).mpr hlead

/-- The search for a cycle finds the ways back. -/
theorem leadsBack_iff_leads (he : e ∈ siblings) :
    leadsBack (Entry.view.ofKind e.kind siblings) e.id [] e.id = true ↔
      ∃ n, 0 < n ∧ Leads siblings n e e := by
  rw [leadsBack_iff]
  constructor
  · rintro ⟨n, hn⟩
    exact ⟨n + 1, Nat.succ_pos n, (walk_eq_some_iff hids he he rfl).mp hn⟩
  · rintro ⟨n, hpos, hlead⟩
    obtain ⟨n, rfl⟩ := Nat.exists_eq_succ_of_ne_zero hpos.ne'
    exact ⟨n, (walk_eq_some_iff hids he he rfl).mpr hlead⟩

theorem causeOf_eq_cycle_iff (he : e ∈ siblings) : causeOf siblings e = .cycle ↔
    e.after ≠ e.id ∧ ∃ n, 2 ≤ n ∧ Leads siblings n e e := by
  rw [and_congr_right Leads.exists_two_le_iff, ← leadsBack_iff_leads hids he]
  unfold causeOf
  dsimp only
  split_ifs with hself hnone hback
  · simp [hself]
  · -- an entry that comes back follows a sibling
    have hopen : ¬∃ n, 0 < n ∧ Leads siblings n e e := by
      rintro ⟨n, hn, hlead⟩
      obtain ⟨t, ht, hkind, hid⟩ := hlead.exists_target hn
      exact next_after_eq_none_iff.mp hnone t ht hkind hid
    simp [mt (leadsBack_iff_leads hids he).mp hopen]
  · simp [hself, hback]
  · simp [hback]

theorem causeOf_eq_blocked_iff (he : e ∈ siblings) : causeOf siblings e = .blocked ↔
    (∃ t ∈ siblings, t.kind = e.kind ∧ t.id = e.after) ∧ ∀ n, 0 < n → ¬Leads siblings n e e := by
  have hopen : (∀ n, 0 < n → ¬Leads siblings n e e) ↔
      ¬leadsBack (Entry.view.ofKind e.kind siblings) e.id [] e.id = true := by
    rw [leadsBack_iff_leads hids he]
    simp only [not_exists, not_and]
  have htarget : (∃ t ∈ siblings, t.kind = e.kind ∧ t.id = e.after) ↔
      ¬next (Entry.view.ofKind e.kind siblings) e.after = none := by
    rw [next_after_eq_none_iff]
    push Not
    rfl
  rw [htarget, hopen]
  unfold causeOf
  dsimp only
  split_ifs with hself hnone hback
  · -- an entry that follows itself comes back in one step
    have hback := (leadsBack_iff_leads hids he).mpr ⟨1, Nat.one_pos, .one he rfl hself⟩
    simp [hback]
  · simp [hnone]
  · simp [hback]
  · simp [hnone, hback]

end Issue

/-! ### Problems -/

/-- A container that sorts shows what the order of its entries is. -/
theorem Container.order_of_display {k : Container} {shown : After.Ordered Entry}
    (hsorted : k.sorted = true) (h : k.display = .ok shown) :
    After.order Entry.view k.entries = .ok shown := by
  unfold display arrange at h
  rw [if_pos hsorted] at h
  exact eq_ok_of_mapError h

/-- What the issue of an entry says, where `told` lists the entries that could not be placed, each
with its issue. -/
structure Issue.Diagnosed (path : String) (siblings : List Entry) (told : List (Issue × Entry))
    (i : Issue) (e : Entry) : Prop where
  names : i.Names path e
  selfReference_iff : i.cause = .selfReference ↔ e.after = e.id
  /-- No sibling of its kind has the id it follows. -/
  missingTarget_iff : i.cause = .missingTarget ↔
    e.after ≠ e.id ∧ ∀ t ∈ siblings, t.kind = e.kind → t.id ≠ e.after
  /-- The way from it comes back after two or more steps. -/
  cycle_iff : i.cause = .cycle ↔ e.after ≠ e.id ∧ ∃ n, 2 ≤ n ∧ Leads siblings n e e
  /-- A sibling of its kind has the id it follows, and the way from it never comes back. -/
  blocked_iff : i.cause = .blocked ↔
    (∃ t ∈ siblings, t.kind = e.kind ∧ t.id = e.after) ∧ ∀ n, 0 < n → ¬Leads siblings n e e
  /-- What blocks an entry could not be placed either. -/
  target_told : i.cause = .blocked →
    ∀ t ∈ siblings, t.kind = e.kind → t.id = e.after → ∃ j, (j, t) ∈ told
  /-- The way from a blocked entry comes to one whose issue is another than that it is blocked. -/
  exists_not_blocked : i.cause = .blocked →
    ∃ n x j, Leads siblings n e x ∧ (j, x) ∈ told ∧ j.cause ≠ .blocked

/-- The issues of a container, each with the entry that it is about. -/
structure Container.Diagnosis (k : Container) (path : String) (problems : List Entry)
    (told : List (Issue × Entry)) : Prop where
  /-- They come first, before those of the containers below. -/
  issues_eq : k.issues path = (told.map Prod.fst ++
    (Issue.collect (containersDeep path k.entries)).1,
    (Issue.collect (containersDeep path k.entries)).2)
  /-- There is one for each problem, and none for what could be placed. -/
  problems_eq : told.map Prod.snd = problems
  nodup : problems.Nodup
  mem_problems_iff : ∀ e, e ∈ problems ↔
    e ∈ k.entries ∧ ¬After.Resolved Entry.view (Entry.view.ofKind e.kind k.entries) e
  diagnosed : ∀ p ∈ told, p.1.Diagnosed path k.entries told p.2

namespace Issue

variable {k : Container} {shown : After.Ordered Entry} {e : Entry}
  (hsorted : k.sorted = true) (h : k.display = .ok shown)

include hsorted h

/-- A sibling that a problem follows is a problem. -/
theorem mem_problems_of_after (he : e ∈ shown.problems) {t : Entry} (ht : t ∈ k.entries)
    (hkind : t.kind = e.kind) (hafter : e.after = t.id) : t ∈ shown.problems := by
  have hmem := (After.problems_of_order (order_of_display hsorted h)).2
  obtain ⟨he, hresolved⟩ := (hmem e).mp he
  refine (hmem t).mpr ⟨ht, fun htarget => hresolved ?_⟩
  change After.Resolved _ (Entry.view.ofKind t.kind k.entries) t at htarget
  rw [hkind] at htarget
  exact .next (mem_ofKind.mpr ⟨he, rfl⟩) htarget hafter

theorem mem_problems_of_leads (he : e ∈ shown.problems) {n : Nat} {x : Entry}
    (hlead : Leads k.entries n e x) : x ∈ shown.problems := by
  induction hlead with
  | here e => exact he
  | next ht hkind hafter _ ih => exact ih (mem_problems_of_after hsorted h he ht hkind hafter)

theorem ids_nodup (kind : After.Kind) :
    ((Entry.view.ofKind kind k.entries).map Entry.id).Nodup :=
  After.exists_order_eq_ok_iff.mp ⟨shown, order_of_display hsorted h⟩ kind

/-- While the way comes to blocked entries only, it goes on. -/
theorem leads_iterate_of_blocked (he : e ∈ k.entries)
    (hblocked : ∀ n x, Leads k.entries n e x → causeOf k.entries x = .blocked) (n : Nat) :
    Leads k.entries n e ((target k.entries)^[n] e) := by
  have hids := ids_nodup hsorted h
  induction n with
  | zero => exact .here e
  | succ n ih =>
    obtain ⟨t, ht, hkind, hid⟩ :=
      ((causeOf_eq_blocked_iff hids (ih.mem he)).mp (hblocked n _ ih)).1
    have hlead := ih.trans (.one ht hkind hid.symm)
    rw [Nat.add_comm 1 n] at hlead
    rwa [hlead.iterate_eq hids]

/-- The way from a problem comes to one that is not blocked. -/
theorem exists_leads_not_blocked (he : e ∈ shown.problems) :
    ∃ n x, Leads k.entries n e x ∧ x ∈ shown.problems ∧ causeOf k.entries x ≠ .blocked := by
  by_contra hnone
  have hmem : ∀ {x}, x ∈ shown.problems → x ∈ k.entries := fun hx =>
    ((After.problems_of_order (order_of_display hsorted h)).2 _).mp hx |>.1
  have hblocked : ∀ n x, Leads k.entries n e x → causeOf k.entries x = .blocked := by
    intro n x hlead
    by_contra hne
    exact hnone ⟨n, x, hlead, mem_problems_of_leads hsorted h he hlead, hne⟩
  have hleads := leads_iterate_of_blocked hsorted h (hmem he) hblocked
  -- among finitely many entries the way passes one twice
  have hfinite : {x | x ∈ k.entries}.Finite := List.finite_toSet k.entries
  obtain ⟨i, j, hij, heq⟩ := hfinite.exists_lt_map_eq_of_forall_mem fun n =>
    (hleads n).mem (hmem he)
  have hloop := leads_iterate_of_blocked hsorted h ((hleads i).mem (hmem he))
    (fun n x hlead => hblocked _ x ((hleads i).trans hlead)) (j - i)
  rw [← Function.iterate_add_apply, Nat.sub_add_cancel hij.le, ← heq] at hloop
  exact ((causeOf_eq_blocked_iff (ids_nodup hsorted h) ((hleads i).mem (hmem he))).mp
    (hblocked i _ (hleads i))).2 (j - i) (Nat.sub_pos_of_lt hij) hloop

theorem diagnosed (path : String) (he : e ∈ shown.problems) :
    (explain path k.entries e).Diagnosed path k.entries
      (shown.problems.map fun e => (explain path k.entries e, e)) e := by
  have hids := ids_nodup hsorted h
  have hmem := (((After.problems_of_order (order_of_display hsorted h)).2 e).mp he).1
  have htold {x : Entry} (hx : x ∈ shown.problems) : (explain path k.entries x, x) ∈
      shown.problems.map fun e => (explain path k.entries e, e) :=
    List.mem_map.mpr ⟨x, hx, rfl⟩
  obtain ⟨n, x, hlead, hx, hcause⟩ := exists_leads_not_blocked hsorted h he
  exact
    { names := names_explain path k.entries e
      selfReference_iff := by rw [cause_explain, causeOf_eq_selfReference_iff]
      missingTarget_iff := by rw [cause_explain, causeOf_eq_missingTarget_iff]
      cycle_iff := by rw [cause_explain, causeOf_eq_cycle_iff hids hmem]
      blocked_iff := by rw [cause_explain, causeOf_eq_blocked_iff hids hmem]
      target_told := fun _ t ht hkind hid =>
        ⟨_, htold (mem_problems_of_after hsorted h he ht hkind hid.symm)⟩
      exists_not_blocked := fun _ => ⟨n, x, _, hlead, htold hx, hcause⟩ }

/-- The issues of a container that sorts are about the entries that could not be placed, one about
each, and the cause of each is what it says. -/
theorem issues_diagnosed (path : String) :
    ∃ told, k.Diagnosis path shown.problems told := by
  obtain ⟨hnodup, hmem⟩ := After.problems_of_order (order_of_display hsorted h)
  refine ⟨shown.problems.map fun e => (explain path k.entries e, e),
    { issues_eq := ?issues
      problems_eq := ?problems
      nodup := hnodup
      mem_problems_iff := hmem
      diagnosed := ?diagnosed }⟩
  case issues =>
    rw [issues, containers, collect, h, List.map_map]
    rfl
  case problems => rw [List.map_map, Function.comp_def, List.map_id']
  case diagnosed =>
    intro p hp
    obtain ⟨e, he, rfl⟩ := List.mem_map.mp hp
    exact diagnosed hsorted h path he

end Issue

/-- Siblings of both kinds that share ids, with problems of each cause: a way that ends at an
unknown id, and ways into a cycle and to an entry that follows itself. -/
def Container.troubled : Container where
  entries :=
    [.template (.node { id := "t", name := "T", after := "x", factory := "f" }),
      .template (.node { id := "x", name := "X", after := "y", factory := "f" }),
      .template (.node { id := "y", name := "Y", after := "x", factory := "f" }),
      .template (.node { id := "s", name := "S", after := "s", factory := "f" }),
      .template (.node { id := "u", name := "U", after := "s", factory := "f" }),
      .template (.node { id := "v", name := "V", after := "u", factory := "f" }),
      .template (.node { id := "l", name := "L", after := "c", factory := "f" }),
      .category { id := "c", name := "C" } true [],
      .category { id := "x", name := "X", after := "gone" } true [],
      .category { id := "t", name := "T", after := "x" } true []]

theorem Issue.issues_diagnosed_troubled :
    troubled.sorted = true ∧ ∃ shown, troubled.display = .ok shown ∧
      shown.problems.map Entry.id = ["t", "x", "l", "s", "t", "u", "v", "x", "y"] ∧
      (troubled.issues "/a").1.map Issue.cause = [.blocked, .missingTarget, .missingTarget,
        .selfReference, .blocked, .blocked, .blocked, .cycle, .cycle] ∧
      ∃ told, troubled.Diagnosis "/a" shown.problems told := by
  have hids : (troubled.display.toOption.map fun shown => shown.problems.map Entry.id) =
      some ["t", "x", "l", "s", "t", "u", "v", "x", "y"] := by
    cbv
  have hcauses : (troubled.issues "/a").1.map Issue.cause = [.blocked, .missingTarget,
      .missingTarget, .selfReference, .blocked, .blocked, .blocked, .cycle, .cycle] := by
    cbv
  cases h : troubled.display with
  | error fault =>
    rw [h] at hids
    cases hids
  | ok shown =>
    rw [h] at hids
    exact ⟨rfl, shown, rfl, Option.some.inj hids, hcauses, issues_diagnosed rfl h "/a"⟩

end NodeCatalog
