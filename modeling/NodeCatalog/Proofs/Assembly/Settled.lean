import NodeCatalog.Assembly
import NodeCatalog.Proofs.Catalog.Edit
import NodeCatalog.Proofs.Container.Growth

/-!
# Contributions one by one

Categories are placed in rounds, but what the rounds come to is that contributions are inserted one
after the other, in some order: each is placed, or left out for the reason that its insertion gives
at that moment (`Settled`).  A category that is deferred changes nothing, and one that is given up
after the last round would be refused once more for the reason that is told
(`exists_settled_placeAll`).  Templates are settled in the order in which they are contributed
(`exists_settled_insertEach`).

In between the tree only grows (`Settled.grows`).
-/

namespace NodeCatalog

open Container

namespace Catalog

variable {cat : Catalog} {e : Entry}

/-! ### One insertion -/

/-- All that an insertion can do: the path does not lead anywhere, or the container there holds an
entry that excludes the new one, or it holds this in the end. -/
theorem insert_cases (cat : Catalog) (e : Entry) :
    (∃ fault, cat.containerAt e.path = .error fault ∧ cat.insert e = ⟨.error fault, cat⟩) ∨
    ∃ a k, cat.root.trace (Path.segments e.path) = some a ∧ cat.root.at? a = some k ∧
      ((k.hasClash e = true ∧ cat.insert e = ⟨.ok false, cat⟩) ∨
        (k.hasClash e = false ∧
          cat.insert e = ⟨.ok true, { cat with root := cat.root.modifyAt (append e) a }⟩)) := by
  rcases hreach : cat.containerAt e.path with fault | k
  · refine .inl ⟨fault, rfl, ?_⟩
    rw [insert, editAt, edit_eq_error_iff.mpr hreach]
  · obtain ⟨a, ha, hk⟩ := reach_eq_ok_iff.mp hreach
    refine .inr ⟨a, k, ha, hk, ?_⟩
    rw [insert, editAt_of_trace ha hk]
    rcases hclash : k.hasClash e with _ | _
    · refine .inr ⟨rfl, ?_⟩
      have hadd : (k.add e).2 = k.append e := by
        rw [entries_add_of_not_hasClash hclash, append]
      rw [modifyAt_congr hk hadd, entries_add_of_not_hasClash hclash]
    · refine .inl ⟨rfl, ?_⟩
      have hsame : (k.add e).2 = id k := by
        rw [entries_add_of_hasClash hclash]
        rfl
      rw [modifyAt_congr hk hsame, modifyAt_id, entries_add_of_hasClash hclash]

theorem exists_of_insert_eq_true (h : (cat.insert e).answer = .ok true) :
    ∃ a k, cat.root.trace (Path.segments e.path) = some a ∧ cat.root.at? a = some k ∧
      k.hasClash e = false ∧
      (cat.insert e).catalog = { cat with root := cat.root.modifyAt (append e) a } := by
  rcases insert_cases cat e with ⟨_, -, heq⟩ | ⟨a, k, ha, hk, ⟨-, heq⟩ | ⟨hclash, heq⟩⟩
  · rw [heq] at h
    cases h
  · rw [heq] at h
    cases h
  · exact ⟨a, k, ha, hk, hclash, by rw [heq]⟩

theorem exists_of_insert_eq_false (h : (cat.insert e).answer = .ok false) :
    ∃ a k, cat.root.trace (Path.segments e.path) = some a ∧ cat.root.at? a = some k ∧
      k.hasClash e = true := by
  rcases insert_cases cat e with ⟨_, -, heq⟩ | ⟨a, k, ha, hk, ⟨hclash, -⟩ | ⟨-, heq⟩⟩
  · rw [heq] at h
    cases h
  · exact ⟨a, k, ha, hk, hclash⟩
  · rw [heq] at h
    cases h

/-- An insertion is refused where its path does not lead anywhere, and for this reason. -/
theorem insert_eq_error_iff {fault : Fault} :
    (cat.insert e).answer = .error fault ↔ cat.containerAt e.path = .error fault := by
  rcases insert_cases cat e with ⟨fault', hreach, heq⟩ | ⟨a, k, ha, hk, hcases⟩
  · rw [heq, hreach, Except.error.injEq, Except.error.injEq]
  · have hreach : cat.containerAt e.path = .ok k := reach_of_trace ha hk e.path
    rw [hreach]
    rcases hcases with ⟨-, heq⟩ | ⟨-, heq⟩
    · rw [heq]
      exact iff_of_false nofun nofun
    · rw [heq]
      exact iff_of_false nofun nofun

/-- Where its path leads somewhere, no entry is refused. -/
theorem insert_ne_error_of_trace {a : List Nat}
    (ha : cat.root.trace (Path.segments e.path) = some a) (fault : Fault) :
    (cat.insert e).answer ≠ .error fault := by
  obtain ⟨k, hk⟩ := exists_at?_of_trace ha
  have hreach : cat.containerAt e.path = .ok k := reach_of_trace ha hk e.path
  rw [ne_eq, insert_eq_error_iff, hreach]
  nofun

/-- A segment that is missing is missing in the path that is asked for. -/
theorem path_eq_of_containerAt {path segment path' : String}
    (h : cat.containerAt path = .error (.segmentNotFound segment path')) : path' = path := by
  obtain ⟨-, segment, -, x, -, -, -, hfault⟩ := exists_of_reach_error h
  rw [segmentFault] at hfault
  split at hfault
  · cases hfault
  · exact (Fault.segmentNotFound.inj hfault).2

/-! ### Insertions one after the other -/

/-- Things are settled one after the other by inserting the entry of each: those in the first list
are placed, those in the second are left out, each for the reason that its insertion gives. -/
inductive Settled {α : Type} (entry : α → Entry) (start : Catalog) :
    Catalog → List α → List (α × Skipped.Reason) → Prop where
  | none : Settled entry start start [] []
  | placed {cat : Catalog} {placed : List α} {out : List (α × Skipped.Reason)} {a : α} :
      Settled entry start cat placed out → (cat.insert (entry a)).answer = .ok true →
      Settled entry start (cat.insert (entry a)).catalog (placed ++ [a]) out
  | duplicate {cat : Catalog} {placed : List α} {out : List (α × Skipped.Reason)} {a : α} :
      Settled entry start cat placed out → (cat.insert (entry a)).answer = .ok false →
      Settled entry start cat placed (out ++ [(a, .duplicate)])
  | refused {cat : Catalog} {placed : List α} {out : List (α × Skipped.Reason)} {a : α}
      {fault : Fault} :
      Settled entry start cat placed out → (cat.insert (entry a)).answer = .error fault →
      Settled entry start cat placed (out ++ [(a, .refused fault)])

theorem insert_unchanged_of_false (h : (cat.insert e).answer = .ok false) :
    (cat.insert e).catalog = cat :=
  insert_unchanged (by simp [h])

theorem insert_unchanged_of_error {fault : Fault} (h : (cat.insert e).answer = .error fault) :
    (cat.insert e).catalog = cat :=
  insert_unchanged (by simp [h])

@[simp] theorem settings_insert (cat : Catalog) (e : Entry) :
    (cat.insert e).catalog.settings = cat.settings := by
  rcases insert_cases cat e with ⟨_, -, heq⟩ | ⟨a, k, -, -, ⟨-, heq⟩ | ⟨-, heq⟩⟩ <;> rw [heq]

@[simp] theorem sorted_insert (cat : Catalog) (e : Entry) :
    (cat.insert e).catalog.root.sorted = cat.root.sorted := by
  rcases insert_cases cat e with ⟨_, -, heq⟩ | ⟨a, k, -, -, ⟨-, heq⟩ | ⟨-, heq⟩⟩
  · rw [heq]
  · rw [heq]
  · rw [heq]
    exact sorted_modifyAt (sorted_append e) a cat.root

namespace Settled

variable {α : Type} {entry : α → Entry} {start mid now : Catalog} {placed placed' : List α}
  {out out' : List (α × Skipped.Reason)} {a : α}

theorem trans (h : Settled entry start mid placed out) (h' : Settled entry mid now placed' out') :
    Settled entry start now (placed ++ placed') (out ++ out') := by
  induction h' with
  | none => rwa [List.append_nil, List.append_nil]
  | placed _ hanswer ih =>
    rw [← List.append_assoc]
    exact ih.placed hanswer
  | duplicate _ hanswer ih =>
    rw [← List.append_assoc]
    exact ih.duplicate hanswer
  | refused _ hanswer ih =>
    rw [← List.append_assoc]
    exact ih.refused hanswer

/-- Things that are all refused by a catalog are settled by leaving it as it is. -/
theorem of_refused {reason : α → Fault} {as : List α}
    (h : ∀ a ∈ as, (start.insert (entry a)).answer = .error (reason a)) :
    Settled entry start start [] (as.map fun a => (a, .refused (reason a))) := by
  induction as with
  | nil => exact .none
  | cons a as ih =>
    have hfirst : Settled entry start start [] [(a, .refused (reason a))] :=
      Settled.none.refused (h a List.mem_cons_self)
    exact hfirst.trans (ih fun b hb => h b (List.mem_cons_of_mem _ hb))

theorem settings_eq (h : Settled entry start now placed out) : now.settings = start.settings := by
  induction h with
  | none => rfl
  | placed _ _ ih => rw [settings_insert, ih]
  | duplicate _ _ ih => exact ih
  | refused _ _ ih => exact ih

theorem sorted_eq (h : Settled entry start now placed out) :
    now.root.sorted = start.root.sorted := by
  induction h with
  | none => rfl
  | placed _ _ ih => rw [sorted_insert, ih]
  | duplicate _ _ ih => exact ih
  | refused _ _ ih => exact ih

/-- While things are settled the tree grows. -/
theorem grows (h : Settled entry start now placed out) : start.root.Grows now.root := by
  induction h with
  | none => exact .refl _
  | placed _ hanswer ih =>
    obtain ⟨a, _, -, -, -, hcatalog⟩ := exists_of_insert_eq_true hanswer
    rw [hcatalog]
    exact ih.trans (.modifyAt_append _ _ a)
  | duplicate _ _ ih => exact ih
  | refused _ _ ih => exact ih

/-- What is left out was left out by some catalog, after which the rest was settled. -/
theorem exists_of_mem_out (h : Settled entry start now placed out) {p : α × Skipped.Reason}
    (hp : p ∈ out) : ∃ cat placed' out', Settled entry cat now placed' out' ∧
      ((p.2 = .duplicate ∧ (cat.insert (entry p.1)).answer = .ok false) ∨
        ∃ fault, p.2 = .refused fault ∧ (cat.insert (entry p.1)).answer = .error fault) := by
  induction h with
  | none => exact absurd hp List.not_mem_nil
  | placed _ hanswer ih =>
    obtain ⟨cat, _, _, hrest, hreason⟩ := ih hp
    exact ⟨cat, _, _, hrest.placed hanswer, hreason⟩
  | @duplicate now _ _ _ _ hanswer ih =>
    rcases List.mem_append.mp hp with hp | hp
    · obtain ⟨cat, _, _, hrest, hreason⟩ := ih hp
      exact ⟨cat, _, _, hrest.duplicate hanswer, hreason⟩
    · obtain rfl := List.mem_singleton.mp hp
      exact ⟨now, _, _, .none, .inl ⟨rfl, hanswer⟩⟩
  | @refused now _ _ _ _ _ hanswer ih =>
    rcases List.mem_append.mp hp with hp | hp
    · obtain ⟨cat, _, _, hrest, hreason⟩ := ih hp
      exact ⟨cat, _, _, hrest.refused hanswer, hreason⟩
    · obtain rfl := List.mem_singleton.mp hp
      exact ⟨now, _, _, .none, .inr ⟨_, rfl, hanswer⟩⟩

/-- Templates do not change where paths lead. -/
theorem trace_eq (h : Settled entry start now placed out)
    (htemplate : ∀ a, ∃ t, entry a = .template t) (ids : List String) :
    now.root.trace ids = start.root.trace ids := by
  induction h with
  | none => rfl
  | @placed _ _ _ a _ hanswer ih =>
    obtain ⟨t, ht⟩ := htemplate a
    obtain ⟨b, _, -, -, -, hcatalog⟩ := exists_of_insert_eq_true hanswer
    rw [hcatalog, ht, trace_modifyAt_append_template, ih]
  | duplicate _ _ ih => exact ih
  | refused _ _ ih => exact ih

end Settled

end Catalog

open Catalog

/-- The record of a thing that is left out. -/
def Skipped.of {α : Type} (kind : Skipped.Kind) (entry : α → Entry) (p : α × Skipped.Reason) :
    Skipped :=
  ⟨kind, (entry p.1).id, p.2⟩

/-- Records are told apart by their kind. -/
theorem Skipped.filter_map_of {α : Type} (kind kind' : Skipped.Kind) (entry : α → Entry)
    (out : List (α × Skipped.Reason)) :
    (out.map (Skipped.of kind entry)).filter (fun s => s.kind = kind') =
      if kind = kind' then out.map (Skipped.of kind entry) else [] := by
  split
  case isTrue h =>
    exact List.filter_eq_self.mpr (List.forall_mem_map.mpr fun _ _ => decide_eq_true h)
  case isFalse h =>
    exact List.filter_eq_nil_iff.mpr (List.forall_mem_map.mpr fun _ _ => by
      rw [decide_eq_true_iff]
      exact h)

/-- The entry of a category that is contributed. -/
def Branch.entry (sorted : Bool) (b : Branch) : Entry :=
  .category b.category sorted b.entries

/-- The entry of a node that is contributed. -/
def NodeTemplate.entry (t : NodeTemplate) : Entry :=
  .template (.node t)

/-- The entry of a meta node that is contributed. -/
def MetaTemplate.entry (t : MetaTemplate) : Entry :=
  .template (.metaNode t)

namespace Contributions

/-- What becomes of contributions of one kind: each is placed or left out, and those left out are
recorded. -/
structure Settles {α : Type} (kind : Skipped.Kind) (entry : α → Entry) (cat : Catalog)
    (as : List α) (result : Catalog × List Skipped) (placed : List α)
    (out : List (α × Skipped.Reason)) : Prop where
  settled : Settled entry cat result.1 placed out
  skipped : result.2 = out.map (Skipped.of kind entry)
  accounted : (placed ++ out.map Prod.fst).Perm as

/-- One thing more that is left out is one thing more that is accounted for. -/
theorem perm_cons_out {α : Type} {placed deferred as : List α} {out : List (α × Skipped.Reason)}
    (h : (placed ++ out.map Prod.fst ++ deferred).Perm as) (a : α) (reason : Skipped.Reason) :
    (placed ++ ((a, reason) :: out).map Prod.fst ++ deferred).Perm (a :: as) := by
  rw [List.append_assoc] at h
  rw [List.map_cons, List.append_assoc, List.cons_append]
  exact List.perm_middle.trans (h.cons a)

/-! ### Rounds -/

section Rounds

variable {cat : Catalog} {sorted : Bool} {bs : List Branch}

theorem addCategory_eq_insert (hsorted : cat.settings.sortChildren = sorted) (b : Branch) :
    cat.addCategory b.category b.entries = cat.insert (b.entry sorted) := by
  rw [addCategory, hsorted, Branch.entry]

/-- A round settles all categories but those it defers, and none for a segment that is missing. -/
theorem exists_settled_place (hsorted : cat.settings.sortChildren = sorted) (bs : List Branch) :
    ∃ placed out, Settled (Branch.entry sorted) cat (place cat bs).catalog placed out ∧
      (place cat bs).skipped = out.map (Skipped.of .category (Branch.entry sorted)) ∧
      (placed ++ out.map Prod.fst ++ (place cat bs).deferred).Perm bs ∧
      ∀ p ∈ out, ∀ segment path, p.2 ≠ .refused (.segmentNotFound segment path) := by
  induction bs generalizing cat with
  | nil => exact ⟨[], [], .none, rfl, .nil, fun _ hp => absurd hp List.not_mem_nil⟩
  | cons b bs ih =>
    have hfirst : (cat.insert (b.entry sorted)).catalog.settings.sortChildren = sorted := by
      rw [settings_insert, hsorted]
    obtain ⟨placed, out, hsettled, hskipped, hperm, hreasons⟩ := ih hfirst
    rw [place, addCategory_eq_insert hsorted]
    split
    case h_1 hanswer =>
      -- the category is placed
      exact ⟨b :: placed, out, (Settled.none.placed hanswer).trans hsettled, hskipped,
        hperm.cons b, hreasons⟩
    case h_2 hanswer =>
      rw [insert_unchanged_of_false hanswer] at hsettled hskipped hperm ⊢
      refine ⟨placed, (b, .duplicate) :: out, (Settled.none.duplicate hanswer).trans hsettled,
        congrArg (_ :: ·) hskipped, perm_cons_out hperm b _, ?_⟩
      refine List.forall_mem_cons.mpr ⟨fun segment path heq => ?_, hreasons⟩
      cases heq
    case h_3 hanswer =>
      -- a segment is missing, and the category is deferred
      rw [insert_unchanged_of_error hanswer] at hsettled hskipped hperm ⊢
      exact ⟨placed, out, hsettled, hskipped, List.perm_middle.trans (hperm.cons b), hreasons⟩
    case h_4 fault hfault hanswer =>
      rw [insert_unchanged_of_error hanswer] at hsettled hskipped hperm ⊢
      refine ⟨placed, (b, .refused fault) :: out, (Settled.none.refused hanswer).trans hsettled,
        congrArg (_ :: ·) hskipped, perm_cons_out hperm b _, ?_⟩
      refine List.forall_mem_cons.mpr ⟨fun segment path heq => ?_, hreasons⟩
      exact hfault segment path (Skipped.Reason.refused.inj heq)

/-- A round that defers all it was given changes nothing, and a segment was missing for each. -/
theorem place_of_stuck (hsorted : cat.settings.sortChildren = sorted)
    (h : bs.length ≤ (place cat bs).deferred.length) :
    place cat bs = ⟨cat, bs, []⟩ ∧ ∀ b ∈ bs, ∃ segment,
      (cat.insert (b.entry sorted)).answer = .error (.segmentNotFound segment b.category.path) := by
  induction bs with
  | nil => exact ⟨rfl, fun _ hb => absurd hb List.not_mem_nil⟩
  | cons b bs ih =>
    have hrest := length_deferred_place_le (cat.insert (b.entry sorted)).catalog bs
    rw [place, addCategory_eq_insert hsorted] at h ⊢
    split at h
    case h_3 segment path hanswer =>
      rw [insert_unchanged_of_error hanswer] at h ⊢
      obtain ⟨hplace, hbs⟩ := ih (Nat.le_of_succ_le_succ h)
      obtain rfl := path_eq_of_containerAt (insert_eq_error_iff.mp hanswer)
      rw [hplace]
      refine ⟨rfl, fun x hx => ?_⟩
      rcases List.mem_cons.mp hx with rfl | hx
      · exact ⟨segment, hanswer⟩
      · exact hbs x hx
    -- in all other cases the first category is not deferred, and one is missing
    all_goals
      have hlength : bs.length + 1 ≤ (place _ bs).deferred.length := h
      omega

/-- A round that defers nothing is the last. -/
theorem placeAll_of_deferred_eq_nil {cat : Catalog} {bs : List Branch}
    (h : (place cat bs).deferred = []) :
    placeAll cat bs = ((place cat bs).catalog, (place cat bs).skipped) := by
  rw [placeAll, if_neg fun hround => hround.2 (List.isEmpty_iff.mpr h), h, List.map_nil,
    List.append_nil]

/-- A category that is given up at the end is refused for the reason that is told. -/
theorem insert_of_stuck {b : Branch} {segment : String}
    (h : (cat.insert (b.entry sorted)).answer =
      .error (.segmentNotFound segment b.category.path)) :
    (cat.insert (b.entry sorted)).answer =
      .error (.segmentNotFound (firstMissing cat b.category.path) b.category.path) := by
  have hreach : cat.containerAt b.category.path =
      .error (.segmentNotFound segment b.category.path) := insert_eq_error_iff.mp h
  rw [h, firstMissing, hreach]

/-- A round that changes nothing is the last. -/
theorem placeAll_of_stuck (hsorted : cat.settings.sortChildren = sorted)
    (h : bs.length ≤ (place cat bs).deferred.length) :
    placeAll cat bs = (cat, bs.map (orphan cat)) := by
  rw [placeAll, (place_of_stuck hsorted h).1, if_neg fun hround => lt_irrefl _ hround.1,
    List.nil_append]

/-- Categories that are given up at the end are settled by leaving them out. -/
theorem settles_of_stuck (h : ∀ b ∈ bs, ∃ segment,
    (cat.insert (b.entry sorted)).answer = .error (.segmentNotFound segment b.category.path)) :
    Settles .category (Branch.entry sorted) cat bs (cat, bs.map (orphan cat)) []
      (bs.map fun b => (b, .refused
        (.segmentNotFound (firstMissing cat b.category.path) b.category.path))) := by
  refine ⟨Settled.of_refused fun b hb => (h b hb).elim fun _ h => insert_of_stuck h, ?_, ?_⟩
  · rw [List.map_map]
    rfl
  · rw [List.nil_append, List.map_map, Function.comp_def, List.map_id']

/-- The rounds settle all categories.  A category for which a segment is said to be missing is still
refused for this reason in the end. -/
theorem exists_settled_placeAll (hsorted : cat.settings.sortChildren = sorted)
    (bs : List Branch) :
    ∃ placed out,
      Settles .category (Branch.entry sorted) cat bs (placeAll cat bs) placed out ∧
      ∀ p ∈ out, ∀ segment path, p.2 = .refused (.segmentNotFound segment path) →
        ((placeAll cat bs).1.insert (p.1.entry sorted)).answer =
          .error (.segmentNotFound segment path) := by
  induction cat, bs using placeAll.induct with
  | case1 cat bs round hround _ _ _ ih =>
    -- what this round settles comes before what the further rounds settle
    obtain ⟨placed, out, hsettled, hskipped, hperm, hreasons⟩ := exists_settled_place hsorted bs
    obtain ⟨placed', out', hrest, hmissing⟩ := ih (by rw [hsettled.settings_eq, hsorted])
    have hall : placeAll cat bs = ((placeAll round.catalog round.deferred).1,
        round.skipped ++ (placeAll round.catalog round.deferred).2) := by
      rw [placeAll, if_pos hround]
    rw [hall]
    refine ⟨placed ++ placed', out ++ out', ⟨hsettled.trans hrest.settled, ?_, ?_⟩, ?_⟩
    · rw [hskipped, hrest.skipped, List.map_append]
    · have hswap := (List.perm_append_comm_assoc placed' (out.map Prod.fst)
        (out'.map Prod.fst)).append_left placed
      rw [List.map_append, List.append_assoc]
      refine hswap.trans (List.Perm.trans ?_ hperm)
      rw [← List.append_assoc]
      exact hrest.accounted.append_left _
    · intro p hp segment path heq
      rcases List.mem_append.mp hp with hp | hp
      · exact absurd heq (hreasons p hp segment path)
      · exact hmissing p hp segment path heq
  | case2 cat bs round hround =>
    by_cases hempty : round.deferred = []
    · -- all are settled
      obtain ⟨placed, out, hsettled, hskipped, hperm, hreasons⟩ := exists_settled_place hsorted bs
      rw [placeAll_of_deferred_eq_nil hempty]
      refine ⟨placed, out, ⟨hsettled, hskipped, ?_⟩, ?_⟩
      · have hdeferred : (place cat bs).deferred = [] := hempty
        rwa [hdeferred, List.append_nil] at hperm
      · exact fun p hp segment path heq => absurd heq (hreasons p hp segment path)
    · -- nothing was placed, and each category is refused for a segment that is missing
      have hlength : bs.length ≤ round.deferred.length := by
        rw [List.isEmpty_iff, and_iff_left hempty] at hround
        omega
      have hbs := (place_of_stuck hsorted hlength).2
      rw [placeAll_of_stuck hsorted hlength]
      refine ⟨[], _, settles_of_stuck hbs, ?_⟩
      intro p hp segment path heq
      obtain ⟨b, hb, rfl⟩ := List.mem_map.mp hp
      obtain ⟨_, h⟩ := hbs b hb
      rw [insert_of_stuck h, Skipped.Reason.refused.inj heq]

end Rounds

/-! ### Templates -/

/-- Things that are inserted one after the other are settled in their order. -/
theorem exists_settled_insertEach {α : Type} {entry : α → Entry} {id : α → String}
    {insert : Catalog → α → Edited Bool} (hinsert : ∀ cat a, insert cat a = cat.insert (entry a))
    (hid : ∀ a, (entry a).id = id a) (kind : Skipped.Kind) (cat : Catalog) (as : List α) :
    ∃ placed out, Settles kind entry cat as (insertEach kind id insert cat as) placed out ∧
      placed.Sublist as ∧ (out.map Prod.fst).Sublist as := by
  induction as generalizing cat with
  | nil => exact ⟨[], [], ⟨.none, rfl, .nil⟩, .slnil, .slnil⟩
  | cons a as ih =>
    obtain ⟨placed, out, ⟨hsettled, hskipped, hperm⟩, hplaced, hout⟩ :=
      ih (cat.insert (entry a)).catalog
    rw [insertEach, hinsert, ← hid]
    rcases hanswer : (cat.insert (entry a)).answer with fault | _ | _
    · rw [insert_unchanged_of_error hanswer] at hsettled hskipped ⊢
      exact ⟨placed, (a, .refused fault) :: out,
        ⟨(Settled.none.refused hanswer).trans hsettled, congrArg (_ :: ·) hskipped,
          List.perm_middle.trans (hperm.cons a)⟩, hplaced.cons a, hout.cons_cons a⟩
    · rw [insert_unchanged_of_false hanswer] at hsettled hskipped ⊢
      exact ⟨placed, (a, .duplicate) :: out,
        ⟨(Settled.none.duplicate hanswer).trans hsettled, congrArg (_ :: ·) hskipped,
          List.perm_middle.trans (hperm.cons a)⟩, hplaced.cons a, hout.cons_cons a⟩
    · exact ⟨a :: placed, out, ⟨(Settled.none.placed hanswer).trans hsettled, hskipped,
        hperm.cons a⟩, hplaced.cons_cons a, hout.cons a⟩

/-! ### The whole -/

/-- The course of assembling without node sets: categories are settled first, then nodes and meta
nodes. -/
structure Course (c : Contributions) where
  /-- The catalog when all categories are settled. -/
  middle : Catalog
  /-- The catalog when all nodes are settled, too. -/
  late : Catalog
  categories : List Branch
  categoriesOut : List (Branch × Skipped.Reason)
  nodes : List NodeTemplate
  nodesOut : List (NodeTemplate × Skipped.Reason)
  metaNodes : List MetaTemplate
  metaNodesOut : List (MetaTemplate × Skipped.Reason)
  settled_categories : Settled (Branch.entry c.settings.sortChildren) (.empty c.settings) middle
    categories categoriesOut
  settled_nodes : Settled NodeTemplate.entry middle late nodes nodesOut
  settled_metaNodes : Settled MetaTemplate.entry late (assemble c).catalog metaNodes metaNodesOut
  /-- A category for which a segment is said to be missing is still refused for this reason when all
  categories are settled. -/
  insert_of_missing : ∀ p ∈ categoriesOut, ∀ segment path,
    p.2 = .refused (.segmentNotFound segment path) →
      (middle.insert (p.1.entry c.settings.sortChildren)).answer =
        .error (.segmentNotFound segment path)
  perm_categories : (categories ++ categoriesOut.map Prod.fst).Perm c.categories
  perm_nodes : (nodes ++ nodesOut.map Prod.fst).Perm c.nodes
  perm_metaNodes : (metaNodes ++ metaNodesOut.map Prod.fst).Perm c.metaNodes
  sublist_nodes : nodes.Sublist c.nodes
  sublist_metaNodes : metaNodes.Sublist c.metaNodes
  skipped_eq : (assemble c).skipped =
    categoriesOut.map (Skipped.of .category (Branch.entry c.settings.sortChildren)) ++
      nodesOut.map (Skipped.of .node NodeTemplate.entry) ++
      metaNodesOut.map (Skipped.of .metaNode MetaTemplate.entry)

theorem nonempty_course {c : Contributions} (hsets : c.nodeSets = []) : Nonempty (Course c) := by
  obtain ⟨categories, categoriesOut, hcategories, hmissing⟩ :=
    @exists_settled_placeAll (.empty c.settings) c.settings.sortChildren rfl c.categories
  generalize hfirst : placeAll (.empty c.settings) c.categories = first at hcategories hmissing
  obtain ⟨nodes, nodesOut, hnodes, hsublist, -⟩ :=
    @exists_settled_insertEach _ NodeTemplate.entry (fun t => t.id) Catalog.addNode
      (fun _ _ => rfl) (fun _ => rfl) .node first.1 c.nodes
  generalize hsecond : insertEach .node (fun t => t.id) Catalog.addNode first.1 c.nodes = second
    at hnodes
  obtain ⟨metaNodes, metaNodesOut, hmetaNodes, hsublist', -⟩ :=
    @exists_settled_insertEach _ MetaTemplate.entry (fun t => t.id) Catalog.addMetaNode
      (fun _ _ => rfl) (fun _ => rfl) .metaNode second.1 c.metaNodes
  generalize hthird : insertEach .metaNode (fun t => t.id) Catalog.addMetaNode second.1
    c.metaNodes = third at hmetaNodes
  have hassemble : (assemble c).catalog = third.1 ∧
      (assemble c).skipped = first.2 ++ [] ++ second.2 ++ third.2 := by
    rw [← hthird, ← hsecond, ← hfirst, assemble, hsets]
    exact ⟨rfl, rfl⟩
  refine ⟨
    { middle := first.1
      late := second.1
      categories
      categoriesOut
      nodes
      nodesOut
      metaNodes
      metaNodesOut
      settled_categories := hcategories.settled
      settled_nodes := hnodes.settled
      settled_metaNodes := hassemble.1 ▸ hmetaNodes.settled
      insert_of_missing := hmissing
      perm_categories := hcategories.accounted
      perm_nodes := hnodes.accounted
      perm_metaNodes := hmetaNodes.accounted
      sublist_nodes := hsublist
      sublist_metaNodes := hsublist'
      skipped_eq := ?_ }⟩
  rw [hassemble.2, List.append_nil, hcategories.skipped, hnodes.skipped, hmetaNodes.skipped]

end Contributions

end NodeCatalog
