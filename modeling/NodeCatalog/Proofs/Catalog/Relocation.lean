import NodeCatalog.Proofs.Catalog.Run

/-!
# What a move means

In the trees that runs reach, paths and places agree, and a move by an id without slashes can be
described by places alone.  It is carried out exactly if the entry is `Movable`: it is the first one
with the id, the path leads to a container, this is neither the entry's own container nor one below,
and it holds no entry of the same id and kind.  Then the entry, with all it holds declared below its
new place (`Entry.rooted`), is appended to the target and taken out where it stood, and nothing else
changes (`move_iff_movable`).

The test of a move for its own subtree compares the texts of paths.  For ids without slashes it
agrees with the comparison of addresses (`not_covers_of_movable`): only the blank id at the root is
taken for an ancestor of the root, and then the root holds the entry already.
-/

namespace NodeCatalog

/-! ### The moved entry -/

namespace Entry

mutual

/-- The entry below the categories with the given ids, and all it holds below the categories that
are around it then. -/
def rooted (ids : List String) : Entry → Entry
  | category c sorted entries =>
    category { c with path := Path.ofSegments ids } sorted (rootedAll (ids ++ [c.id]) entries)
  | template t => template (t.withPath (Path.ofSegments ids))

/-- The entries of a list below the categories with the given ids. -/
def rootedAll (ids : List String) : List Entry → List Entry
  | [] => []
  | e :: es => rooted ids e :: rootedAll ids es

end

theorem rootedAll_eq_map (ids : List String) (es : List Entry) :
    rootedAll ids es = es.map (rooted ids) := by
  induction es with
  | nil => rfl
  | cons e es ih => rw [rootedAll, ih, List.map_cons]

end Entry

open Container

/-- Relocating tidy contents roots them, since only ids that are segments are joined. -/
theorem Container.Tidy.relocateAll_eq_rootedAll {sorted : Bool} {ids : List String} {k : Container}
    (h : Tidy sorted ids k) {ids' : List String}
    (hids' : k.entries ≠ [] → ∀ s ∈ ids', Path.IsSegment s) :
    Entry.relocateAll (Path.ofSegments ids') k.entries = Entry.rootedAll ids' k.entries := by
  induction h generalizing ids' with
  | @mk ids k flag distinct placed inner ih =>
    rw [Entry.relocateAll_eq_map, Entry.rootedAll_eq_map]
    apply List.map_congr_left
    intro e he
    have hsegments := hids' (List.ne_nil_of_mem he)
    cases e with
    | category c s entries =>
      -- where nothing is held, the id need not be a segment, and no path is joined
      have hfits : (Entry.category c s entries).Fits _ ids := ⟨placed _ he, inner _ he⟩
      rw [Entry.relocate, Entry.rooted, Path.join_ofSegments hsegments]
      congr 1
      refine ih _ he ⟨s, entries⟩ rfl ?_
      intro hne x hx
      rcases List.mem_append.mp hx with hx | hx
      · exact hsegments x hx
      · rw [List.mem_singleton.mp hx]
        exact hfits.isSegment_id rfl hne
    | template t => rfl

theorem Entry.Fits.relocate_eq_rooted {sorted : Bool} {ids ids' : List String} {e : Entry}
    (h : e.Fits sorted ids) (hids' : ∀ s ∈ ids', Path.IsSegment s) :
    e.relocate (Path.ofSegments ids') = e.rooted ids' := by
  have := h.tidy.relocateAll_eq_rootedAll fun _ => hids'
  rw [relocateAll, rootedAll, List.cons.injEq] at this
  exact this.1

/-! ### Appending -/

namespace Container

/-- Adds an entry at the end, whatever is held. -/
def append (e : Entry) (k : Container) : Container :=
  { k with entries := k.entries ++ [e] }

theorem modify_append_of_lt {α : Type} {l : List α} {i : Nat} (h : i < l.length) (f : α → α)
    (r : List α) : (l ++ r).modify i f = l.modify i f ++ r := by
  induction l generalizing i with
  | nil => cases h
  | cons x l ih =>
    cases i with
    | zero => rfl
    | succ i =>
      rw [List.cons_append, List.modify_succ_cons, List.modify_succ_cons,
        ih (Nat.lt_of_succ_lt_succ h), List.cons_append]

/-- An entry may be appended before or after another one is taken out. -/
theorem eraseAt_append_comm {a : List Nat} {k : Container} {x : Entry}
    (h : k.entryAt? a = some x) (e : Entry) :
    (k.append e).eraseAt a = (k.eraseAt a).append e := by
  match a with
  | [] => cases h
  | [i] =>
    have hi := (List.getElem?_eq_some_iff.mp h).1
    rw [eraseAt, append, eraseAt, append, List.eraseIdx_append_of_lt_length hi]
  | i :: j :: a =>
    obtain ⟨inner, hinner, -⟩ := Option.bind_eq_some_iff.mp h
    obtain ⟨y, hy, -⟩ := Option.bind_eq_some_iff.mp hinner
    have hi := (List.getElem?_eq_some_iff.mp hy).1
    rw [eraseAt, append, eraseAt, append, modifyInner, modifyInner, modify_append_of_lt hi]

/-- An entry may be appended to a container before or after one is taken out that does not hold the
container. -/
theorem modifyAt_append_eraseAt {p t : List Nat} {k receiver : Container} {x : Entry}
    (hx : k.entryAt? p = some x) (ht : k.at? t = some receiver) (hp : ¬ p <+: t) (e : Entry) :
    (k.eraseAt p).modifyAt (append e) (shift p t) = (k.modifyAt (append e) t).eraseAt p := by
  by_cases htp : t <+: p
  · obtain ⟨b, hb, rfl⟩ := exists_append_of_prefix htp hp
    rw [entryAt?_append hb, ht] at hx
    rw [shift_append hb, eraseAt_append hb, eraseAt_append hb, modifyAt_modifyAt,
      modifyAt_modifyAt]
    exact modifyAt_congr ht (eraseAt_append_comm hx e).symm
  · exact modifyAt_shift hp htp (append e) k

end Container

namespace Catalog

variable {settings : Settings} {cat : Catalog} {id path : String}

/-! ### What may be moved -/

/-- The entry at address `p` is the one that a move by id means, and may be moved to the container
at address `t`, which the path leads to. -/
structure Movable (cat : Catalog) (id path : String) (p : List Nat) (e : Entry) (t : List Nat)
    (receiver : Container) : Prop where
  first : cat.root.IsFirst id p e
  resolves : cat.containerAt path = .ok receiver
  target : cat.root.trace (Path.segments path) = some t
  /-- A category is not moved into itself or below itself. -/
  outside : e.kind = .category → ¬ p <+: t
  free : receiver.hasClash e = false

theorem at?_of_containerAt {t : List Nat} {k : Container} (h : cat.containerAt path = .ok k)
    (ht : cat.root.trace (Path.segments path) = some t) : cat.root.at? t = some k := by
  obtain ⟨a, ha, hk⟩ := reach_eq_ok_iff.mp h
  obtain rfl := Option.some.inj (ht.symm.trans ha)
  exact hk

/-- In a tidy tree, the path that is told of the first entry leads to what holds it. -/
theorem TidyFor.containerAt_source (h : cat.TidyFor settings) {a : List Nat} {i : Nat} {e : Entry}
    {holder : Container} (ha : cat.root.at? a = some holder) (he : holder.entries[i]? = some e) :
    cat.containerAt ((cat.root.idsAt a).foldl Path.join Path.root) = .ok holder := by
  refine containerAt_foldl_join (h.tidy.trace_idsAt ha) ha ?_
  have hne : holder.entries ≠ [] := List.ne_nil_of_mem (List.mem_of_getElem? he)
  exact (h.tidy.at? ha).isSegment hne

/-! ### The plan -/

/-- The ids along the way to a category, and its own, lead to what it holds. -/
theorem TidyFor.trace_category (h : cat.TidyFor settings) {a : List Nat} {i : Nat} {e : Entry}
    {holder : Container} (ha : cat.root.at? a = some holder) (he : holder.entries[i]? = some e)
    (hkind : e.kind = .category) :
    cat.root.trace (cat.root.idsAt a ++ [e.id]) = some (a ++ [i]) := by
  cases e with
  | category c sorted entries =>
    have hat : cat.root.at? (a ++ [i]) = some ⟨sorted, entries⟩ := by
      rw [at?_append, ha, Option.bind_some, at?, inner?, he]
      rfl
    have hids : holder.idsAt [i] = [c.id] := @idsAt_cons holder ⟨sorted, entries⟩ i c he []
    have htrace := h.tidy.trace_idsAt hat
    rw [idsAt_append ha, hids] at htrace
    exact htrace
  | template t => cases hkind

/-- The test for the own subtree lets a movable entry pass. -/
theorem TidyFor.not_covers_of_movable (h : cat.TidyFor settings) (hid : '/' ∉ id.toList)
    {a t : List Nat} {i : Nat} {e : Entry} {holder receiver : Container}
    (hm : cat.Movable id path (a ++ [i]) e t receiver) (ha : cat.root.at? a = some holder)
    (he : holder.entries[i]? = some e) (hkind : e.kind = .category) :
    ¬ Path.covers (Path.join ((cat.root.idsAt a).foldl Path.join Path.root) id)
      (Path.normal path) = true := by
  intro hcovers
  have hne : holder.entries ≠ [] := List.ne_nil_of_mem (List.mem_of_getElem? he)
  have hids : ∀ s ∈ cat.root.idsAt a, Path.IsSegment s := (h.tidy.at? ha).isSegment hne
  rw [Path.foldl_join_root hids, Path.join_ofSegments hids] at hcovers
  rcases Path.prefix_of_covers hids hid (fun _ hs => Path.isSegment_of_mem_segments hs) hcovers
    with ⟨more, hmore⟩ | ⟨hnil, -, hroot⟩
  · -- the target path goes through the entry
    have htrace := h.trace_category ha he hkind
    rw [hm.first.id_eq] at htrace
    have htarget := hm.target
    rw [← hmore] at htarget
    exact hm.outside hkind (prefix_of_trace_append htrace htarget)
  · -- the id is blank and both the entry and the target are at the root, which is not free then
    have hta : a = [] := by
      have := h.tidy.trace_idsAt ha
      rw [hnil] at this
      exact (Option.some.inj this).symm
    have htt : t = [] := by
      have := hm.target
      rw [hroot] at this
      exact (Option.some.inj this).symm
    have hreceiver := at?_of_containerAt hm.resolves hm.target
    subst hta htt
    obtain rfl := Option.some.inj (ha.symm.trans hreceiver)
    exact not_clashes_of_mem hm.free (List.mem_of_getElem? he) (Entry.clashes_iff.mpr rfl)

theorem TidyFor.planMove_of_movable (h : cat.TidyFor settings) (hid : '/' ∉ id.toList)
    {p t : List Nat} {e : Entry} {receiver : Container}
    (hm : cat.Movable id path p e t receiver) : ∃ plan, cat.planMove id path = .ok plan := by
  obtain ⟨a, i, holder, rfl, ha, he⟩ := exists_of_entryAt? hm.first.entryAt
  have hsource := locate?_of_isFirst hm.first Path.root
  have hholder := h.containerAt_source ha he
  have hfind := hm.first.find? ha
  have hreceiver : cat.containerAt (Path.normal path) = .ok receiver := by
    rw [containerAt, Path.segments_normal]
    exact reach_of_trace hm.target (at?_of_containerAt hm.resolves hm.target) _
  refine ⟨_, planMove_eq_ok hsource hholder hfind ?_ hreceiver hm.free⟩
  rintro ⟨hkind, hcovers⟩
  exact h.not_covers_of_movable hid hm ha he hkind hcovers

theorem TidyFor.movable_of_planMove (h : cat.TidyFor settings) {plan : Plan}
    (hplan : cat.planMove id path = .ok plan) :
    ∃ p e t receiver, cat.Movable id path p e t receiver := by
  obtain ⟨p, e, t, receiver, rest, hfirst, ht, hat, hp, -, -, -⟩ := move_of_planMove hplan
  refine ⟨p, e, t, receiver, hfirst, reach_of_trace ht hat path, ht, fun _ => hp, ?_⟩
  obtain ⟨holder', found, receiver', hsource, hholder, hfound, -, hreceiver, hclash, htarget⟩ :=
    exists_of_planMove hplan
  -- the path that is told of the entry leads to what holds it, so the right kind is looked up
  obtain ⟨a, i, holder, rfl, ha, he⟩ := exists_of_entryAt? hfirst.entryAt
  rw [locate?_of_isFirst hfirst, Option.some.injEq] at hsource
  rw [← hsource, h.containerAt_source ha he, Except.ok.injEq] at hholder
  rw [← hholder, hfirst.find? ha, Option.some.injEq] at hfound
  rw [htarget, containerAt, Path.segments_normal, reach_of_trace ht hat, Except.ok.injEq]
    at hreceiver
  rw [hreceiver, hfound]
  exact hclash

/-! ### The move -/

/-- A movable entry whose move is planned is taken out, and rooted at the end of the target, which
is where it was. -/
theorem TidyFor.move_of_plan (h : cat.TidyFor settings) {plan : Plan}
    (hplan : cat.planMove id path = .ok plan) {p t : List Nat} {e : Entry} {receiver : Container}
    (hm : cat.Movable id path p e t receiver) :
    ¬ p <+: t ∧ (∃ rest, (cat.root.eraseAt p).at? (shift p t) = some rest) ∧
      (cat.move id path).catalog = { cat with
        root := (cat.root.eraseAt p).modifyAt (append (e.rooted (Path.segments path)))
          (shift p t) } := by
  obtain ⟨p', e', t', receiver', rest, hfirst, ht, hat, hp, -, hrest, hmove⟩ :=
    move_of_planMove hplan
  obtain ⟨rfl, rfl⟩ := hm.first.unique hfirst
  obtain rfl := Option.some.inj (hm.target.symm.trans ht)
  obtain rfl := Option.some.inj ((at?_of_containerAt hm.resolves ht).symm.trans hat)
  obtain ⟨a, i, holder, -, ha, he⟩ := exists_of_entryAt? hfirst.entryAt
  have hfits := (h.tidy.at? ha).fits (List.mem_of_getElem? he)
  have hrooted : e.relocate (Path.normal path) = e.rooted (Path.segments path) :=
    hfits.relocate_eq_rooted fun _ hs => Path.isSegment_of_mem_segments hs
  -- nothing excludes the entry from the target once it is taken out
  have hclash : rest.hasClash e = false := by
    apply (hasClash_of_eraseAt hat hp hrest).mpr
    intro j x hx hxe
    exact absurd hxe (not_clashes_of_mem hm.free (List.mem_of_getElem? hx))
  have hadd : (rest.add (e.relocate (Path.normal path))).2 =
      rest.append (e.rooted (Path.segments path)) := by
    rw [← hrooted, entries_add_of_not_hasClash ((hasClash_relocate _ _ _).trans hclash), append]
  refine ⟨hp, ⟨rest, hrest⟩, ?_⟩
  rw [hmove, modifyAt_congr hrest hadd]

theorem TidyFor.move_of_movable (h : cat.TidyFor settings) (hid : '/' ∉ id.toList)
    {p t : List Nat} {e : Entry} {receiver : Container}
    (hm : cat.Movable id path p e t receiver) :
    (cat.move id path).catalog = { cat with
      root := (cat.root.modifyAt (append (e.rooted (Path.segments path))) t).eraseAt p } := by
  obtain ⟨plan, hplan⟩ := h.planMove_of_movable hid hm
  obtain ⟨hp, -, hmove⟩ := h.move_of_plan hplan hm
  have hat := at?_of_containerAt hm.resolves hm.target
  -- the entry may be appended before the old one is taken out
  rw [hmove, modifyAt_append_eraseAt hm.first.entryAt hat hp]

/-- In what a run reaches, a move by an id without slashes succeeds exactly if the entry is movable,
and then the entry is rooted at the end of the target and taken out where it stood. -/
theorem move_iff_movable (settings : Settings) (ops : List Operation) (id path : String)
    (hid : '/' ∉ id.toList) :
    let cat := (empty settings).run ops
    ((cat.move id path).answer = .ok () ↔
      ∃ p e t receiver, cat.Movable id path p e t receiver) ∧
    ∀ p e t receiver, cat.Movable id path p e t receiver →
      (cat.move id path).catalog = { cat with
        root := (cat.root.modifyAt (append (e.rooted (Path.segments path))) t).eraseAt p } := by
  intro cat
  have h : cat.TidyFor settings := tidyFor_run settings ops
  refine ⟨?_, fun p e t receiver hm => h.move_of_movable hid hm⟩
  rw [move_answer_eq_ok_iff]
  constructor
  · rintro ⟨plan, hplan⟩
    exact h.movable_of_planMove hplan
  · rintro ⟨p, e, t, receiver, hm⟩
    exact h.planMove_of_movable hid hm

theorem move_iff_movable_nesting :
    ∃ p e t receiver, ((empty {}).run nesting).Movable "b" "/" p e t receiver ∧
      (((empty {}).run nesting).move "b" "/").catalog = { (empty {}).run nesting with
        root := (((empty {}).run nesting).root.modifyAt
          (append (e.rooted (Path.segments "/"))) t).eraseAt p } := by
  obtain ⟨hiff, hresult⟩ := move_iff_movable {} nesting "b" "/" (by decide)
  have hanswer : (((empty {}).run nesting).move "b" "/").answer = .ok () := by decide +kernel
  obtain ⟨p, e, t, receiver, hm⟩ := hiff.mp hanswer
  exact ⟨p, e, t, receiver, hm, hresult p e t receiver hm⟩

end Catalog

end NodeCatalog
