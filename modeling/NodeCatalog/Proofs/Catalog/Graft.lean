import NodeCatalog.Proofs.Catalog.Relocation
import NodeCatalog.Proofs.Container.Location
import NodeCatalog.Proofs.Container.Growth

/-!
# Moves as grafts

If just one entry has the id that is moved, a move can be told from the list of all entries: those
with the id in their location are declared below the target from there on, and the others stay as
they are (`Entry.grafted`, `Catalog.TidyFor.listed_move_perm`).

Grafting is defined on locations (`graft`).  Two grafts commute on locations that hold both ids at
most once, if neither target goes through the other id (`graft_comm`, `Entry.grafted_comm`).
-/

namespace NodeCatalog

/-! ### Locations -/

/-- A location once the id in it, if any, stands right behind the target. -/
def graft (id : String) (target l : List String) : List String :=
  if id ∈ l then target ++ l.dropWhile (· != id) else l

section Lists

variable {id x y : String} {target ids front back l : List String}

theorem graft_of_not_mem (h : id ∉ l) : graft id target l = l :=
  if_neg h

theorem graft_split (h : id ∉ front) :
    graft id target (front ++ id :: back) = target ++ id :: back := by
  have hdrop : (front ++ id :: back).dropWhile (· != id) = id :: back := by
    rw [List.dropWhile_append_of_pos, List.dropWhile_cons_of_neg]
    · simp
    · intro s hs
      rw [bne_iff_ne]
      rintro rfl
      exact h hs
  rw [graft, if_pos (List.mem_append_right _ List.mem_cons_self), hdrop]

/-- What is grafted back is as it was. -/
theorem graft_back (htarget : id ∉ target) (hids : id ∉ ids) :
    graft id ids (graft id target (ids ++ id :: back)) = ids ++ id :: back := by
  rw [graft_split hids, graft_split htarget]

/-- What stands behind the id stays behind it. -/
theorem graft_append (h : id ∈ l) (more : List String) :
    graft id target (l ++ more) = graft id target l ++ more := by
  obtain ⟨front, back, rfl, hfront⟩ := List.eq_append_cons_of_mem h
  rw [List.append_assoc, List.cons_append, graft_split hfront, graft_split hfront,
    List.append_assoc, List.cons_append]

theorem mem_target_or_mem_of_mem_graft {s : String} (h : s ∈ graft id target l) :
    s ∈ target ∨ s ∈ l := by
  rw [graft] at h
  split at h
  · exact (List.mem_append.mp h).imp_right fun h => List.dropWhile_subset _ h
  · exact .inr h

/-- A location keeps its last id. -/
theorem exists_graft_concat (id : String) (target ids : List String) (s : String) :
    ∃ ids', graft id target (ids ++ [s]) = ids' ++ [s] ∧ ∀ x ∈ ids', x ∈ target ∨ x ∈ ids := by
  by_cases hids : id ∈ ids
  · exact ⟨graft id target ids, graft_append hids [s], fun x => mem_target_or_mem_of_mem_graft⟩
  · by_cases hs : s = id
    · subst hs
      exact ⟨target, graft_split hids, fun x hx => .inl hx⟩
    · have hmem : id ∉ ids ++ [s] := by
        rw [List.mem_append, List.mem_singleton, not_or]
        exact ⟨hids, Ne.symm hs⟩
      exact ⟨ids, graft_of_not_mem hmem, fun x hx => .inr hx⟩

/-- Where an id stands above another, the graft of the lower one decides. -/
theorem graft_comm_of_above {tx ty middle : List String} (hytx : y ∉ tx) (hxty : x ∉ ty)
    (hx : x ∉ front) (hxy : x ∉ middle ++ y :: back) (hy : y ∉ front ++ x :: middle) :
    graft y ty (graft x tx (front ++ x :: (middle ++ y :: back))) =
      graft x tx (graft y ty (front ++ x :: (middle ++ y :: back))) := by
  have hsplit : ∀ above : List String,
      above ++ x :: (middle ++ y :: back) = (above ++ x :: middle) ++ y :: back := by
    intro above
    rw [List.append_assoc, List.cons_append]
  have hy' : y ∉ tx ++ x :: middle := by
    rw [List.mem_append, not_or] at hy ⊢
    exact ⟨hytx, hy.2⟩
  have hx' : x ∉ ty ++ y :: back := by
    rw [List.mem_append, not_or] at hxy ⊢
    exact ⟨hxty, hxy.2⟩
  calc graft y ty (graft x tx (front ++ x :: (middle ++ y :: back)))
      = graft y ty (tx ++ x :: (middle ++ y :: back)) := by rw [graft_split hx]
    _ = ty ++ y :: back := by rw [hsplit, graft_split hy']
    _ = graft x tx (ty ++ y :: back) := (graft_of_not_mem hx').symm
    _ = graft x tx (graft y ty (front ++ x :: (middle ++ y :: back))) := by
        rw [hsplit, graft_split hy]

theorem graft_comm_of_not_mem {tx ty : List String} (hytx : y ∉ tx) (hyl : y ∉ l) :
    graft y ty (graft x tx l) = graft x tx (graft y ty l) := by
  have hy : y ∉ graft x tx l := fun h => (mem_target_or_mem_of_mem_graft h).elim hytx hyl
  rw [graft_of_not_mem hy, graft_of_not_mem hyl]

/-- Two grafts commute where neither target goes through the other id. -/
theorem graft_comm (hne : x ≠ y) {tx ty : List String} (hytx : y ∉ tx) (hxty : x ∉ ty)
    (hx : l.count x ≤ 1) (hy : l.count y ≤ 1) :
    graft y ty (graft x tx l) = graft x tx (graft y ty l) := by
  by_cases hxl : x ∈ l
  swap
  · exact (graft_comm_of_not_mem hxty hxl).symm
  by_cases hyl : y ∈ l
  swap
  · exact graft_comm_of_not_mem hytx hyl
  obtain ⟨front, back, rfl, hfront⟩ := List.eq_append_cons_of_mem hxl
  rw [List.count_append, List.count_cons_self] at hx
  rw [List.count_append, List.count_cons_of_ne hne] at hy
  have hback : x ∉ back := List.count_eq_zero.mp (by omega)
  rcases List.mem_append.mp hyl with hyl | hyl
  · -- the id of the second graft stands above
    obtain ⟨front, middle, rfl, hy_front⟩ := List.eq_append_cons_of_mem hyl
    rw [List.count_append, List.count_cons_self] at hy
    have hy_rest : y ∉ middle ++ x :: back := by
      refine List.count_eq_zero.mp ?_
      rw [List.count_append, List.count_cons_of_ne hne]
      omega
    rw [List.append_assoc, List.cons_append]
    exact (graft_comm_of_above hxty hytx hy_front hy_rest hfront).symm
  · obtain ⟨middle, back, rfl, -⟩ :=
      List.eq_append_cons_of_mem (List.mem_of_ne_of_mem hne.symm hyl)
    rw [List.count_append, List.count_cons_self] at hy
    have hy_above : y ∉ front ++ x :: middle := by
      refine List.count_eq_zero.mp ?_
      rw [List.count_append, List.count_cons_of_ne hne]
      omega
    exact graft_comm_of_above hytx hxty hfront hback hy_above

end Lists

/-! ### Entries -/

namespace Entry

theorem location_bare (e : Entry) : e.bare.location = e.location := by
  rw [location, path_bare, id_bare, location]

/-- Of an entry without what it holds, relocating changes the path only. -/
theorem relocate_bare_relocate (e : Entry) (path path' : String) :
    (e.bare.relocate path).bare.relocate path' = e.bare.relocate path' := by
  cases e with
  | category c sorted entries => rfl
  | template t => cases t <;> rfl

theorem relocate_path_bare (e : Entry) : e.bare.relocate e.path = e.bare := by
  cases e with
  | category c sorted entries => rfl
  | template t => cases t <;> rfl

/-- The path of an entry once its location is grafted: it stays as it is where the id is not in the
location. -/
def graftedPath (id : String) (target : List String) (e : Entry) : String :=
  if id ∈ e.location then Path.ofSegments (graft id target e.location).dropLast else e.path

/-- An entry, without what it holds, below its grafted path. -/
def grafted (id : String) (target : List String) (e : Entry) : Entry :=
  e.bare.relocate (e.graftedPath id target)

variable {id x y : String} {target : List String} {e : Entry}

theorem grafted_bare : e.bare.grafted id target = e.grafted id target := by
  have hbare : e.bare.bare = e.bare := by cases e <;> rfl
  rw [grafted, graftedPath, location_bare, path_bare, hbare, grafted, graftedPath]

theorem grafted_of_not_mem (h : id ∉ e.location) : e.grafted id target = e.bare := by
  rw [grafted, graftedPath, if_neg h, relocate_path_bare]

theorem map_grafted_tally (id : String) (target : List String) (es : List Entry) :
    (tally bare es).map (grafted id target) =
      ((listed es).map (grafted id target) : List Entry) := by
  have hbare : grafted id target ∘ bare = grafted id target := funext fun _ => grafted_bare
  rw [tally, Multiset.map_coe, List.map_map, hbare]

@[simp] theorem id_grafted : (e.grafted id target).id = e.id := by
  rw [grafted, id_relocate, id_bare]

/-- A grafted entry stands at the grafted location. -/
theorem location_grafted (htarget : ∀ s ∈ target, Path.IsSegment s) :
    (e.grafted id target).location = graft id target e.location := by
  by_cases hid : id ∈ e.location
  · obtain ⟨ids, hids, hmem⟩ := exists_graft_concat id target (Path.segments e.path) e.id
    have hsegments : ∀ s ∈ ids, Path.IsSegment s := fun s hs =>
      (hmem s hs).elim (htarget s) Path.isSegment_of_mem_segments
    rw [location, id_grafted, grafted, path_relocate, graftedPath, if_pos hid, location, hids,
      List.dropLast_concat, Path.segments_ofSegments hsegments]
  · rw [grafted_of_not_mem hid, location_bare, graft_of_not_mem hid]

/-- Two grafts declare an entry anew if one of the ids is in its location. -/
theorem grafted_grafted {tx ty : List String} (htx : ∀ s ∈ tx, Path.IsSegment s) (hytx : y ∉ tx) :
    (e.grafted x tx).grafted y ty = e.bare.relocate
      (if x ∈ e.location ∨ y ∈ e.location then
        Path.ofSegments (graft y ty (graft x tx e.location)).dropLast
      else e.path) := by
  have hpath : (e.grafted x tx).path = e.graftedPath x tx := by rw [grafted, path_relocate]
  rw [grafted, graftedPath, location_grafted htx, hpath, grafted, relocate_bare_relocate]
  refine congrArg (fun path => e.bare.relocate path) ?_
  by_cases hy : y ∈ graft x tx e.location
  · have hye := (mem_target_or_mem_of_mem_graft hy).resolve_left hytx
    rw [if_pos hy, if_pos (.inr hye)]
  · rw [if_neg hy, graft_of_not_mem hy, graftedPath]
    by_cases hx : x ∈ e.location
    · rw [if_pos hx, if_pos (.inl hx)]
    · rw [graft_of_not_mem hx] at hy
      rw [if_neg hx, if_neg (not_or.mpr ⟨hx, hy⟩)]

/-- Of an entry that is grafted twice, only the path is new. -/
theorem relocate_path_grafted_grafted (x y : String) (tx ty : List String) (e : Entry) :
    e.bare.relocate ((e.grafted x tx).grafted y ty).path = (e.grafted x tx).grafted y ty := by
  rw [grafted, path_relocate, grafted, relocate_bare_relocate]

/-- Two grafts of an entry commute where neither target goes through the other id. -/
theorem grafted_comm (hne : x ≠ y) {tx ty : List String} (htx : ∀ s ∈ tx, Path.IsSegment s)
    (hty : ∀ s ∈ ty, Path.IsSegment s) (hytx : y ∉ tx) (hxty : x ∉ ty)
    (hx : e.location.count x ≤ 1) (hy : e.location.count y ≤ 1) :
    (e.grafted x tx).grafted y ty = (e.grafted y ty).grafted x tx := by
  rw [grafted_grafted htx hytx, grafted_grafted hty hxty, graft_comm hne hytx hxty hx hy]
  simp only [or_comm]

theorem grafted_eq {ids ids' : List String} (hplaced : Path.segments e.path = ids)
    (hid : id ∈ ids ++ [e.id]) (hgraft : graft id target (ids ++ [e.id]) = ids' ++ [e.id]) :
    e.grafted id target = e.bare.relocate (Path.ofSegments ids') := by
  rw [grafted, graftedPath, location, hplaced, if_pos hid, hgraft, List.dropLast_concat]

/-- Rooting grafts what is rooted, if the id stands at the end of the location of each entry, or
before. -/
theorem map_grafted_listed {sorted : Bool} {ids ids' : List String} {es : List Entry}
    (hfits : ∀ e ∈ es, e.Fits sorted ids)
    (hgraft : ∀ e ∈ es, id ∈ ids ++ [e.id] ∧ graft id target (ids ++ [e.id]) = ids' ++ [e.id]) :
    (listed es).map (grafted id target) = (listed (rootedAll ids' es)).map bare := by
  induction es using forest_induction generalizing ids ids' with
  | nil => rfl
  | category c sorted' entries rest ihe ihr =>
    obtain ⟨hc, hfits_rest⟩ := List.forall_mem_cons.mp hfits
    obtain ⟨⟨hid, hgraft_c⟩, hgraft_rest⟩ := List.forall_mem_cons.mp hgraft
    -- what the category holds has its location behind that of the category
    have hentries : (listed entries).map (grafted id target) =
        (listed (rootedAll (ids' ++ [c.id]) entries)).map bare := by
      refine ihe (fun e he => (hc.inner ⟨sorted', entries⟩ rfl).fits he) fun e _ => ?_
      exact ⟨List.mem_append_left _ hid,
        (graft_append hid [e.id]).trans (congrArg (fun ids => ids ++ [e.id]) hgraft_c)⟩
    rw [listed_category, List.map_cons, List.map_append, hentries, ihr hfits_rest hgraft_rest,
      grafted_eq hc.placed hid hgraft_c, rootedAll, rooted, listed_category, List.map_cons,
      List.map_append]
    rfl
  | template t rest ihr =>
    obtain ⟨ht, hfits_rest⟩ := List.forall_mem_cons.mp hfits
    obtain ⟨⟨hid, hgraft_t⟩, hgraft_rest⟩ := List.forall_mem_cons.mp hgraft
    rw [listed_template, List.map_cons, ihr hfits_rest hgraft_rest,
      grafted_eq ht.placed hid hgraft_t, rootedAll, rooted, listed_template, List.map_cons]
    rfl

end Entry

/-! ### Moves -/

namespace Catalog

open Container

variable {settings : Settings} {cat : Catalog} {id path : String}

/-- A moved entry and all it holds are grafted. -/
theorem TidyFor.map_grafted_moved (h : cat.TidyFor settings)
    (hid : ((Entry.listed cat.root.entries).map Entry.id).count id = 1) {p : List Nat} {e : Entry}
    (he : cat.root.entryAt? p = some e) (heid : e.id = id) (target : List String) :
    (Entry.listed [e]).map (Entry.grafted id target) =
      (Entry.listed [e.rooted target]).map Entry.bare := by
  subst heid
  obtain ⟨a, i, holder, -, ha, hi⟩ := exists_of_entryAt? he
  have hfits := (h.tidy.at? ha).fits (List.mem_of_getElem? hi)
  have habove := h.tidy.id_not_mem_path hid (mem_listed_of_entryAt? he)
  rw [hfits.placed] at habove
  refine Entry.map_grafted_listed (fun x hx => List.mem_singleton.mp hx ▸ hfits) fun x hx => ?_
  obtain rfl := List.mem_singleton.mp hx
  exact ⟨List.mem_append_right _ (List.mem_singleton_self _), graft_split habove⟩

/-- What is left when the entry is taken out is not grafted. -/
theorem TidyFor.map_grafted_left (h : cat.TidyFor settings)
    (hid : ((Entry.listed cat.root.entries).map Entry.id).count id = 1) {p : List Nat} {e : Entry}
    (he : cat.root.entryAt? p = some e) (heid : e.id = id) (target : List String) :
    (Entry.listed (cat.root.eraseAt p).entries).map (Entry.grafted id target) =
      (Entry.listed (cat.root.eraseAt p).entries).map Entry.bare := by
  -- the one entry with the id is out
  have hcount : ((Entry.listed (cat.root.eraseAt p).entries).map Entry.id).count id = 0 := by
    have htally := congrArg (Multiset.count id) <|
      tally_eraseAt Entry.id he fun i b => Entry.id_mapContainer (modifyAt (eraseAt [i]) b)
    rw [Multiset.count_add, tally, tally, Entry.tally, Entry.tally, Entry.tally,
      Multiset.coe_count, Multiset.coe_count, Multiset.coe_count, hid] at htally
    have hmem : id ∈ (Entry.listed [e]).map Entry.id :=
      heid ▸ List.mem_map_of_mem (Entry.mem_listed_self e [])
    have hpos := List.count_pos_iff.mpr hmem
    omega
  refine List.map_congr_left fun z hz => Entry.grafted_of_not_mem fun hmem => ?_
  exact List.count_eq_zero.mp hcount ((h.tidy.eraseAt p).mem_ids_of_mem_location hz hmem)

/-- A move takes one entry out and puts it back rooted in the target. -/
theorem TidyFor.exists_tally_move (h : cat.TidyFor settings)
    (hmove : (cat.move id path).answer = .ok ()) :
    ∃ p e, cat.root.entryAt? p = some e ∧ e.id = id ∧
      cat.root.tally Entry.bare =
        Entry.tally Entry.bare [e] + (cat.root.eraseAt p).tally Entry.bare ∧
      (cat.move id path).catalog.root.tally Entry.bare =
        Entry.tally Entry.bare [e.rooted (Path.segments path)]
          + (cat.root.eraseAt p).tally Entry.bare := by
  obtain ⟨plan, hplan⟩ := move_answer_eq_ok_iff.mp hmove
  obtain ⟨p, e, t, receiver, hm⟩ := h.movable_of_planMove hplan
  obtain ⟨-, ⟨rest, hrest⟩, hcatalog⟩ := h.move_of_plan hplan hm
  -- neither change can be seen in the categories around it
  have herase := tally_eraseAt Entry.bare hm.first.entryAt fun i b =>
    Entry.bare_mapContainer (sorted_modifyAt (sorted_eraseAt [i]) b)
  have happend := tally_modifyAt_append hrest (e.rooted (Path.segments path)) fun b =>
    Entry.bare_mapContainer (sorted_modifyAt (sorted_append _) b)
  refine ⟨p, e, hm.first.entryAt, hm.first.id_eq, herase, ?_⟩
  rw [hcatalog, happend, add_comm]

/-- If one entry has the id that is moved, a move grafts the locations of all entries. -/
theorem TidyFor.listed_move_perm (h : cat.TidyFor settings)
    (hid : ((Entry.listed cat.root.entries).map Entry.id).count id = 1)
    (hmove : (cat.move id path).answer = .ok ()) :
    ((Entry.listed (cat.move id path).catalog.root.entries).map Entry.bare).Perm
      ((Entry.listed cat.root.entries).map (Entry.grafted id (Path.segments path))) := by
  obtain ⟨p, e, he, heid, hbefore, hafter⟩ := h.exists_tally_move hmove
  have hmoved := h.map_grafted_moved hid he heid (Path.segments path)
  have hleft := h.map_grafted_left hid he heid (Path.segments path)
  have hgrafted := Entry.map_grafted_tally id (Path.segments path)
  refine Multiset.coe_eq_coe.mp ?_
  calc (((Entry.listed (cat.move id path).catalog.root.entries).map Entry.bare : List Entry) :
        Multiset Entry)
      = Entry.tally Entry.bare [e.rooted (Path.segments path)]
          + (cat.root.eraseAt p).tally Entry.bare := hafter
    _ = (Entry.tally Entry.bare [e]).map (Entry.grafted id (Path.segments path))
          + ((cat.root.eraseAt p).tally Entry.bare).map
              (Entry.grafted id (Path.segments path)) := by
        rw [hgrafted, hmoved, tally, hgrafted, hleft, Entry.tally, Entry.tally]
    _ = (cat.root.tally Entry.bare).map (Entry.grafted id (Path.segments path)) := by
        rw [hbefore, Multiset.map_add]
    _ = ((Entry.listed cat.root.entries).map (Entry.grafted id (Path.segments path)) :
          List Entry) := hgrafted cat.root.entries

end Catalog

end NodeCatalog
