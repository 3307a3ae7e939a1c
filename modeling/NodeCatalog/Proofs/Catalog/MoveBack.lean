import NodeCatalog.Proofs.Catalog.Commute

/-!
# Moving back

An entry that alone has its id is moved, and then moved back to the path that was told of it before.
The second move succeeds if the first one did: what held the entry is still where it was
(`TidyFor.trace_move`), it does not lie in the entry, and holds no other one with the id
(`TidyFor.movable_back`).  Then every entry is declared below the path that it had, up to the text
of this path, and the snapshot is that of the start if containers sort (`move_back_restores`): on
locations, grafting an id back to where it stood undoes the graft (`TidyFor.graft_location_back`).
-/

namespace NodeCatalog.Catalog

open Container

variable {settings : Settings} {cat : Catalog} {id path source : String}

/-! ### The way back -/

/-- What does not lie in the moved entry is where it was. -/
theorem TidyFor.trace_move (h : cat.TidyFor settings) (hmove : (cat.move id path).answer = .ok ())
    {p t : List Nat} {e : Entry} {receiver : Container} (hm : cat.Movable id path p e t receiver)
    {ids : List String} {a : List Nat} (ha : cat.root.trace ids = some a) (hp : ¬ p <+: a) :
    (cat.move id path).catalog.root.trace ids = some (shift p a) := by
  obtain ⟨plan, hplan⟩ := move_answer_eq_ok_iff.mp hmove
  obtain ⟨-, -, hcatalog⟩ := h.move_of_plan hplan hm
  rw [hcatalog]
  exact (Grows.modifyAt_append _ _ _).trace (trace_eraseAt ha hp)

/-- The target of a move does not go through what is moved. -/
theorem TidyFor.not_mem_target (h : cat.TidyFor settings)
    (hid : ((Entry.listed cat.root.entries).map Entry.id).count id = 1)
    (hmove : (cat.move id path).answer = .ok ()) : id ∉ Path.segments path := by
  obtain ⟨p, e, t, receiver, hm⟩ := h.exists_movable hmove
  obtain ⟨plan, hplan⟩ := move_answer_eq_ok_iff.mp hmove
  obtain ⟨hp, -, -⟩ := h.move_of_plan hplan hm
  exact h.not_mem_of_trace hid hmove hm.target (h.trace_move hmove hm hm.target hp)

/-- The path that is told of an entry has the segments of the path below which it is declared. -/
theorem TidyFor.segments_source (h : cat.TidyFor settings)
    (hid : ((Entry.listed cat.root.entries).map Entry.id).count id = 1)
    (hsource : cat.root.locate? id Path.root = some source) {z : Entry}
    (hz : z ∈ Entry.listed cat.root.entries) (hzid : z.id = id) :
    Path.segments source = Path.segments z.path := by
  obtain ⟨a, i, e, hfirst, rfl⟩ := exists_isFirst_of_locate? hsource
  obtain ⟨b, j, holder, hb, ha, hi⟩ := exists_of_entryAt? hfirst.entryAt
  obtain ⟨rfl, -⟩ := List.append_inj' hb rfl
  obtain rfl := Entry.eq_of_count_id_eq_one hid (mem_listed_of_entryAt? hfirst.entryAt) hz
    hfirst.id_eq hzid
  have hmem := List.mem_of_getElem? hi
  have hsegments : ∀ s ∈ cat.root.idsAt a, Path.IsSegment s :=
    (h.tidy.at? ha).isSegment (List.ne_nil_of_mem hmem)
  rw [((h.tidy.at? ha).fits hmem).placed, List.nil_append,
    Path.foldl_join_root hsegments, Path.segments_ofSegments hsegments]

/-- What held the moved entry holds none with its id any more. -/
theorem TidyFor.id_ne_of_mem_source (h : cat.TidyFor settings)
    (hid : ((Entry.listed cat.root.entries).map Entry.id).count id = 1)
    (hmove : (cat.move id path).answer = .ok ()) {z : Entry}
    (hz : z ∈ Entry.listed cat.root.entries) (hzid : z.id = id) {a : List Nat} {k : Container}
    (ha : (cat.move id path).catalog.root.trace (Path.segments z.path) = some a)
    (hk : (cat.move id path).catalog.root.at? a = some k) {y : Entry} (hy : y ∈ k.entries) :
    y.id ≠ id := by
  intro hyid
  obtain ⟨p, e, t, receiver, hm⟩ := h.exists_movable hmove
  obtain ⟨j, hj⟩ := List.mem_iff_getElem?.mp hy
  have hentry : (cat.move id path).catalog.root.entryAt? (a ++ [j]) = some y := by
    rw [entryAt?_concat, hk]
    exact hj
  -- it would be the moved entry, which is declared below the target
  have hpath := h.path_of_moved hid hmove (mem_listed_of_entryAt? hentry) hyid
  rw [(((h.move id path).tidy.at? hk).fits hy).placed, List.nil_append, idsAt_of_trace ha] at hpath
  exact h.path_ne_of_movable hid hm hz hzid hpath

/-- A moved entry may be moved back to where it was. -/
theorem TidyFor.movable_back (h : cat.TidyFor settings)
    (hid : ((Entry.listed cat.root.entries).map Entry.id).count id = 1)
    (hmove : (cat.move id path).answer = .ok ())
    (hsource : cat.root.locate? id Path.root = some source) :
    ∃ p e t receiver, (cat.move id path).catalog.Movable id source p e t receiver := by
  obtain ⟨p, e, t, receiver, hm⟩ := h.exists_movable hmove
  obtain ⟨a, i, holder, rfl, ha, hi⟩ := exists_of_entryAt? hm.first.entryAt
  have hmem := mem_listed_of_entryAt? hm.first.entryAt
  have hpath := h.segments_source hid hsource hmem hm.first.id_eq
  have htrace : cat.root.trace (Path.segments source) = some a := by
    rw [hpath, ((h.tidy.at? ha).fits (List.mem_of_getElem? hi)).placed, List.nil_append]
    exact h.tidy.trace_idsAt ha
  -- what held the entry is still there
  have hafter : (cat.move id path).catalog.root.trace (Path.segments source) =
      some (shift (a ++ [i]) a) := by
    refine h.trace_move hmove hm htrace fun hprefix => ?_
    have hlength := hprefix.length_le
    rw [List.length_append, List.length_singleton] at hlength
    omega
  obtain ⟨k, hk⟩ := exists_at?_of_trace hafter
  -- and so is an entry with the id
  have hoccurs : id ∈ (Entry.listed (cat.move id path).catalog.root.entries).map Entry.id := by
    rw [(h.ids_move_perm hid hmove).mem_iff, ← List.count_pos_iff, hid]
    exact Nat.one_pos
  obtain ⟨q, x, hx⟩ := exists_isFirst_of_mem hoccurs
  refine ⟨q, x, _, k, hx, reach_of_trace hafter hk source, hafter, fun _ hq => ?outside, ?free⟩
  case outside =>
    refine h.not_mem_of_trace hid hmove htrace hafter ?_
    rw [← hx.id_eq]
    exact id_mem_of_trace hafter hx.entryAt hq
  case free =>
    rw [hasClash_eq_false_iff]
    intro hkey
    obtain ⟨y, hy, hyx⟩ := List.mem_map.mp hkey
    refine h.id_ne_of_mem_source hid hmove hmem hm.first.id_eq (hpath ▸ hafter) hk hy ?_
    rw [← hx.id_eq, ← (Prod.mk.inj hyx).1]

/-! ### There and back -/

/-- Grafting an id to a target and back changes no location. -/
theorem TidyFor.graft_location_back (h : cat.TidyFor settings)
    (hid : ((Entry.listed cat.root.entries).map Entry.id).count id = 1)
    (hmove : (cat.move id path).answer = .ok ())
    (hsource : cat.root.locate? id Path.root = some source) {z : Entry}
    (hz : z ∈ Entry.listed cat.root.entries) :
    graft id (Path.segments source) (graft id (Path.segments path) z.location) = z.location := by
  by_cases hmem : id ∈ z.location
  · obtain ⟨front, back, hsplit, hfront⟩ := List.eq_append_cons_of_mem hmem
    obtain ⟨w, hw, hwid, hwpath⟩ := h.tidy.exists_of_mem_location hz hsplit
    rw [h.segments_source hid hsource hw hwid, hwpath, hsplit,
      graft_back (h.not_mem_target hid hmove) hfront]
  · rw [graft_of_not_mem hmem, graft_of_not_mem hmem]

/-- In what a run reaches with sorting on, an entry that alone has its id is moved back to the path
that was told of it before it was moved, if this id holds no slash.  The snapshot is as at the start,
and the same entries are there, each declared below a path with the segments that it had. -/
theorem move_back_restores (settings : Settings) (hsorted : settings.sortChildren = true)
    (ops : List Operation) (id path source : String) (hslash : '/' ∉ id.toList) :
    let start := (empty settings).run ops
    let moved := start.move id path
    let back := moved.catalog.move id source
    ((Entry.listed start.root.entries).map Entry.id).count id = 1 →
    start.root.locate? id Path.root = some source → moved.answer = .ok () →
    back.answer = .ok () ∧
      (∃ s, start.snapshot = .ok s ∧ back.catalog.snapshot = .ok s) ∧
      ∃ place : Entry → String,
        ((Entry.listed back.catalog.root.entries).map Entry.bare).Perm
          ((Entry.listed start.root.entries).map fun e => e.bare.relocate (place e)) ∧
        ∀ e ∈ Entry.listed start.root.entries,
          Path.segments (place e) = Path.segments e.path := by
  intro start moved back hid hsource hmove
  have h : start.TidyFor settings := tidyFor_run settings ops
  have hback : back.answer = .ok () := by
    obtain ⟨p, e, t, receiver, hm⟩ := h.movable_back hid hmove hsource
    exact move_answer_eq_ok_iff.mpr ((h.move id path).planMove_of_movable hslash hm)
  let place : Entry → String := fun e =>
    ((e.grafted id (Path.segments path)).grafted id (Path.segments source)).path
  have hperm : ((Entry.listed back.catalog.root.entries).map Entry.bare).Perm
      ((Entry.listed start.root.entries).map fun e => e.bare.relocate (place e)) := by
    simpa only [place, Entry.relocate_path_grafted_grafted]
      using h.listed_move_move_perm hid hid hmove hback
  have hplace : ∀ e ∈ Entry.listed start.root.entries,
      Path.segments (place e) = Path.segments e.path := by
    intro e he
    have hlocation :
        ((e.grafted id (Path.segments path)).grafted id (Path.segments source)).location =
          e.location := by
      rw [Entry.location_grafted fun _ => Path.isSegment_of_mem_segments,
        Entry.location_grafted fun _ => Path.isSegment_of_mem_segments,
        h.graft_location_back hid hmove hsource he]
    exact (List.append_inj' hlocation rfl).1
  exact ⟨hback, h.exists_snapshot_of_relocated ((h.move id path).move id source) hsorted hperm
    hplace, place, hperm, hplace⟩

/-- The category "b" is moved out of "a", with the node in it, and back. -/
theorem move_back_restores_nesting :
    let start := (empty {}).run nesting
    let moved := start.move "b" "/"
    let back := moved.catalog.move "b" "/a"
    back.answer = .ok () ∧
      (∃ s, start.snapshot = .ok s ∧ back.catalog.snapshot = .ok s) ∧
      ∃ place : Entry → String,
        ((Entry.listed back.catalog.root.entries).map Entry.bare).Perm
          ((Entry.listed start.root.entries).map fun e => e.bare.relocate (place e)) ∧
        ∀ e ∈ Entry.listed start.root.entries,
          Path.segments (place e) = Path.segments e.path :=
  move_back_restores {} rfl nesting "b" "/" "/a" (by decide) (by decide +kernel)
    (by decide +kernel) (by decide +kernel)

end NodeCatalog.Catalog
