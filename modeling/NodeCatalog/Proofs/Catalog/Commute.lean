import NodeCatalog.Proofs.Catalog.Graft
import NodeCatalog.Proofs.Snapshot.Listed

/-!
# Moves of two entries commute

Two entries that alone have their ids are moved, in either order.  If all four moves succeed, both
orders end in trees that list the same entries below the same paths, in some order, and that have
the same snapshot if their containers sort (`Catalog.moves_commute`).  One of the entries may hold
the other, or be moved into what the other is moved into.

A move is a graft of all locations, and grafts commute where neither target goes through the id of
the other (`Entry.grafted_comm`).  This is what the four answers come to: a target that is found
both before and after an entry is moved does not go through this entry
(`Catalog.TidyFor.not_mem_of_trace`).
-/

namespace NodeCatalog.Catalog

open Container

variable {settings : Settings} {cat : Catalog} {id path : String}

/-! ### Targets -/

theorem TidyFor.exists_movable (h : cat.TidyFor settings)
    (hmove : (cat.move id path).answer = .ok ()) :
    ∃ p e t receiver, cat.Movable id path p e t receiver := by
  obtain ⟨plan, hplan⟩ := move_answer_eq_ok_iff.mp hmove
  exact h.movable_of_planMove hplan

/-- An entry that may be moved to a target is not declared there yet. -/
theorem TidyFor.path_ne_of_movable (h : cat.TidyFor settings)
    (hid : ((Entry.listed cat.root.entries).map Entry.id).count id = 1) {p t : List Nat}
    {e : Entry} {receiver : Container} (hm : cat.Movable id path p e t receiver) {z : Entry}
    (hz : z ∈ Entry.listed cat.root.entries) (hzid : z.id = id) :
    Path.segments z.path ≠ Path.segments path := by
  intro hpath
  obtain rfl := Entry.eq_of_count_id_eq_one hid (mem_listed_of_entryAt? hm.first.entryAt) hz
    hm.first.id_eq hzid
  -- the path leads to what holds the entry, and this would be the target
  obtain ⟨a, holder, ha, hholder, hmem⟩ := h.tidy.exists_trace_of_mem_listed hz
  rw [hpath, hm.target] at ha
  obtain rfl := Option.some.inj ha
  obtain rfl := Option.some.inj
    ((at?_of_containerAt hm.resolves hm.target).symm.trans hholder)
  exact not_clashes_of_mem hm.free hmem (Entry.clashes_iff.mpr rfl)

/-- A moved entry is declared below the target. -/
theorem TidyFor.path_of_moved (h : cat.TidyFor settings)
    (hid : ((Entry.listed cat.root.entries).map Entry.id).count id = 1)
    (hmove : (cat.move id path).answer = .ok ()) {z : Entry}
    (hz : z ∈ Entry.listed (cat.move id path).catalog.root.entries) (hzid : z.id = id) :
    Path.segments z.path = Path.segments path := by
  have hmem := (h.listed_move_perm hid hmove).mem_iff.mp (List.mem_map_of_mem hz)
  obtain ⟨w, hw, hgrafted⟩ := List.mem_map.mp hmem
  have hwid : w.id = id := by
    rw [← hzid, ← z.id_bare, ← hgrafted, Entry.id_grafted]
  have hlocation := congrArg Entry.location hgrafted
  subst hwid
  rw [Entry.location_grafted fun _ => Path.isSegment_of_mem_segments, Entry.location_bare,
    Entry.location, graft_split (h.tidy.id_not_mem_path hid hw), Entry.location] at hlocation
  exact (List.append_inj' hlocation rfl).1.symm

/-- Ids that lead to a container both before and after a move do not go through what is moved. -/
theorem TidyFor.not_mem_of_trace (h : cat.TidyFor settings)
    (hid : ((Entry.listed cat.root.entries).map Entry.id).count id = 1)
    (hmove : (cat.move id path).answer = .ok ()) {ids : List String} {a b : List Nat}
    (ha : cat.root.trace ids = some a)
    (hb : (cat.move id path).catalog.root.trace ids = some b) : id ∉ ids := by
  intro hmem
  obtain ⟨front, back, rfl⟩ := List.append_of_mem hmem
  obtain ⟨p, e, t, receiver, hm⟩ := h.exists_movable hmove
  obtain ⟨_, z, hz, hzid, hbefore⟩ := h.tidy.exists_of_trace ha
  obtain ⟨_, w, hw, hwid, hafter⟩ := (h.move id path).tidy.exists_of_trace hb
  -- what is moved would be declared below the ids in front of its own both times
  refine h.path_ne_of_movable hid hm (mem_listed_of_entryAt? hz) hzid ?_
  rw [hbefore, ← hafter, h.path_of_moved hid hmove (mem_listed_of_entryAt? hw) hwid]

/-! ### Two moves -/

/-- A move changes no ids. -/
theorem TidyFor.ids_move_perm (h : cat.TidyFor settings)
    (hid : ((Entry.listed cat.root.entries).map Entry.id).count id = 1)
    (hmove : (cat.move id path).answer = .ok ()) :
    ((Entry.listed (cat.move id path).catalog.root.entries).map Entry.id).Perm
      ((Entry.listed cat.root.entries).map Entry.id) := by
  have hperm := (h.listed_move_perm hid hmove).map Entry.id
  simpa only [List.map_map, Function.comp_def, Entry.id_bare, Entry.id_grafted] using hperm

/-- Two moves graft the locations twice. -/
theorem TidyFor.listed_move_move_perm (h : cat.TidyFor settings) {x y tx ty : String}
    (hx : ((Entry.listed cat.root.entries).map Entry.id).count x = 1)
    (hy : ((Entry.listed cat.root.entries).map Entry.id).count y = 1)
    (hmove_x : (cat.move x tx).answer = .ok ())
    (hmove_y : ((cat.move x tx).catalog.move y ty).answer = .ok ()) :
    ((Entry.listed ((cat.move x tx).catalog.move y ty).catalog.root.entries).map Entry.bare).Perm
      ((Entry.listed cat.root.entries).map fun e =>
        (e.grafted x (Path.segments tx)).grafted y (Path.segments ty)) := by
  have hy' : ((Entry.listed (cat.move x tx).catalog.root.entries).map Entry.id).count y = 1 := by
    rw [(h.ids_move_perm hx hmove_x).count_eq, hy]
  refine ((h.move x tx).listed_move_perm hy' hmove_y).trans ?_
  have hfirst := (h.listed_move_perm hx hmove_x).map (Entry.grafted y (Path.segments ty))
  simpa only [List.map_map, Function.comp_def, Entry.grafted_bare] using hfirst

/-- The same entry is grafted by two moves whatever their order. -/
theorem TidyFor.grafted_comm (h : cat.TidyFor settings) {x y tx ty : String} (hne : x ≠ y)
    (hx : ((Entry.listed cat.root.entries).map Entry.id).count x = 1)
    (hy : ((Entry.listed cat.root.entries).map Entry.id).count y = 1)
    (hmove_x : (cat.move x tx).answer = .ok ())
    (hmove_xy : ((cat.move x tx).catalog.move y ty).answer = .ok ())
    (hmove_y : (cat.move y ty).answer = .ok ())
    (hmove_yx : ((cat.move y ty).catalog.move x tx).answer = .ok ()) {e : Entry}
    (he : e ∈ Entry.listed cat.root.entries) :
    (e.grafted x (Path.segments tx)).grafted y (Path.segments ty) =
      (e.grafted y (Path.segments ty)).grafted x (Path.segments tx) := by
  -- each target is found before and after the other move
  obtain ⟨_, _, _, _, hm_x⟩ := h.exists_movable hmove_x
  obtain ⟨_, _, _, _, hm_yx⟩ := (h.move y ty).exists_movable hmove_yx
  obtain ⟨_, _, _, _, hm_y⟩ := h.exists_movable hmove_y
  obtain ⟨_, _, _, _, hm_xy⟩ := (h.move x tx).exists_movable hmove_xy
  have hytx := h.not_mem_of_trace hy hmove_y hm_x.target hm_yx.target
  have hxty := h.not_mem_of_trace hx hmove_x hm_y.target hm_xy.target
  exact Entry.grafted_comm hne (fun _ => Path.isSegment_of_mem_segments)
    (fun _ => Path.isSegment_of_mem_segments) hytx hxty (h.tidy.count_location_le_one hx he)
    (h.tidy.count_location_le_one hy he)

/-- In what a run reaches with sorting on, two entries that alone have their ids are moved in either
order to the same effect, if all four moves succeed: the snapshots are equal, and every entry is
declared below the same path.  This path is where the two grafts of its location lead. -/
theorem moves_commute (settings : Settings) (hsorted : settings.sortChildren = true)
    (ops : List Operation) (x y tx ty : String) (hne : x ≠ y) :
    let start := (empty settings).run ops
    let xMoved := start.move x tx
    let xyMoved := xMoved.catalog.move y ty
    let yMoved := start.move y ty
    let yxMoved := yMoved.catalog.move x tx
    ((Entry.listed start.root.entries).map Entry.id).count x = 1 →
    ((Entry.listed start.root.entries).map Entry.id).count y = 1 →
    xMoved.answer = .ok () → xyMoved.answer = .ok () →
    yMoved.answer = .ok () → yxMoved.answer = .ok () →
    (∃ s, xyMoved.catalog.snapshot = .ok s ∧ yxMoved.catalog.snapshot = .ok s) ∧
      ∃ place : Entry → String,
        ((Entry.listed xyMoved.catalog.root.entries).map Entry.bare).Perm
          ((Entry.listed start.root.entries).map fun e => e.bare.relocate (place e)) ∧
        ((Entry.listed yxMoved.catalog.root.entries).map Entry.bare).Perm
          ((Entry.listed start.root.entries).map fun e => e.bare.relocate (place e)) ∧
        ∀ e ∈ Entry.listed start.root.entries, Path.segments (place e) ++ [e.id] =
          graft y (Path.segments ty) (graft x (Path.segments tx) e.location) := by
  intro start xMoved xyMoved yMoved yxMoved hx hy hmove_x hmove_xy hmove_y hmove_yx
  have h : start.TidyFor settings := tidyFor_run settings ops
  have hxy := h.listed_move_move_perm hx hy hmove_x hmove_xy
  have hyx := h.listed_move_move_perm hy hx hmove_y hmove_yx
  rw [← List.map_congr_left fun e he =>
    h.grafted_comm hne hx hy hmove_x hmove_xy hmove_y hmove_yx he] at hyx
  have hsnapshot := ((h.move x tx).move y ty).exists_snapshot ((h.move y ty).move x tx) hsorted
    (hxy.trans hyx.symm)
  -- both orders end with every entry below the path that it has when it is grafted twice
  refine ⟨hsnapshot, fun e =>
    ((e.grafted x (Path.segments tx)).grafted y (Path.segments ty)).path, ?_, ?_, fun e _ => ?_⟩
  · simpa only [Entry.relocate_path_grafted_grafted] using hxy
  · simpa only [Entry.relocate_path_grafted_grafted] using hyx
  · have hlocation : ((e.grafted x (Path.segments tx)).grafted y (Path.segments ty)).location =
        graft y (Path.segments ty) (graft x (Path.segments tx) e.location) := by
      rw [Entry.location_grafted fun _ => Path.isSegment_of_mem_segments,
        Entry.location_grafted fun _ => Path.isSegment_of_mem_segments]
    rw [← hlocation, Entry.location, Entry.id_grafted, Entry.id_grafted]

/-- The category "b" is moved out of "a", and the node "x" out of "b". -/
theorem moves_commute_nesting :
    let start := (empty {}).run nesting
    let xyMoved := ((start.move "b" "/").catalog.move "x" "/a").catalog
    let yxMoved := ((start.move "x" "/a").catalog.move "b" "/").catalog
    (∃ s, xyMoved.snapshot = .ok s ∧ yxMoved.snapshot = .ok s) ∧
      ∃ place : Entry → String,
        ((Entry.listed xyMoved.root.entries).map Entry.bare).Perm
          ((Entry.listed start.root.entries).map fun e => e.bare.relocate (place e)) ∧
        ((Entry.listed yxMoved.root.entries).map Entry.bare).Perm
          ((Entry.listed start.root.entries).map fun e => e.bare.relocate (place e)) ∧
        ∀ e ∈ Entry.listed start.root.entries, Path.segments (place e) ++ [e.id] =
          graft "x" (Path.segments "/a") (graft "b" (Path.segments "/") e.location) :=
  moves_commute {} rfl nesting "b" "x" "/" "/a" (by decide) (by decide +kernel) (by decide +kernel)
    (by decide +kernel) (by decide +kernel) (by decide +kernel) (by decide +kernel)

end NodeCatalog.Catalog
