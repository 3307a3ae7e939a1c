import NodeCatalog.Catalog.Move
import NodeCatalog.Proofs.Catalog.Edit
import NodeCatalog.Proofs.Container.First
import NodeCatalog.Proofs.Path.Segments

/-!
# What a move does to any tree

A move finds its entry four times: by the search, by the path that the search tells, by the kind and
id at the target, and when it is taken out.  Whatever the tree, the entry that is taken out does not
hold the target (`not_prefix_of_planMove`): if it did, all ids on the way to it would be segments of
the target path, the path told by the search would lead to the very container that holds it, and
the plan would have been refused.  So the target is still there when the entry is out, and a move
that is planned is carried out (`move_of_planMove`).
-/

namespace NodeCatalog.Catalog

open Container

variable {cat : Catalog} {id path : String}

/-! ### Plans -/

theorem exists_of_planMove {plan : Plan} (h : cat.planMove id path = .ok plan) :
    ∃ holder e receiver, cat.root.locate? id Path.root = some plan.source ∧
      cat.containerAt plan.source = .ok holder ∧ holder.find? id false = some e ∧
      ¬ (e.kind = .category ∧ Path.covers (Path.join plan.source id) plan.target = true) ∧
      cat.containerAt plan.target = .ok receiver ∧ receiver.hasClash e = false ∧
      plan.target = Path.normal path := by
  unfold planMove at h
  simp only [bind, Except.bind, pure, Except.pure] at h
  split at h
  · rename_i source hsource
    split at h
    · cases h
    · rename_i holder hholder
      split at h
      · rename_i e he
        split at h
        · cases h
        · rename_i hcovers
          split at h
          · cases h
          · rename_i receiver hreceiver
            split at h
            · cases h
            · rename_i hany
              have hid : e.id = id := id_of_find? he
              subst hid
              cases h
              exact ⟨holder, e, receiver, hsource, hholder, he, hcovers, hreceiver,
                Bool.not_eq_true _ ▸ hany, rfl⟩
      · cases h
  · cases h

theorem planMove_eq_ok {source : String} {holder receiver : Container} {e : Entry}
    (hsource : cat.root.locate? id Path.root = some source)
    (hholder : cat.containerAt source = .ok holder) (he : holder.find? id false = some e)
    (hcovers : ¬ (e.kind = .category ∧
      Path.covers (Path.join source id) (Path.normal path) = true))
    (hreceiver : cat.containerAt (Path.normal path) = .ok receiver)
    (hclash : receiver.hasClash e = false) :
    cat.planMove id path = .ok ⟨source, Path.normal path⟩ := by
  have hid : e.id = id := id_of_find? he
  have hany : (receiver.entries.any fun x => x.id == id && x.kind == e.kind) = false := by
    rw [← hid]
    exact hclash
  unfold planMove
  simp only [bind, Except.bind, pure, Except.pure, hsource, hholder, he, if_neg hcovers, hreceiver,
    hany, Bool.false_eq_true, if_false]

/-! ### The path that is told of the entry -/

/-- Ids that are segments and lead to a container make a path to it. -/
theorem containerAt_foldl_join {ids : List String} {a : List Nat} {k : Container}
    (h : cat.root.trace ids = some a) (ha : cat.root.at? a = some k)
    (hids : ∀ s ∈ ids, Path.IsSegment s) :
    cat.containerAt (ids.foldl Path.join Path.root) = .ok k := by
  rw [Path.foldl_join_root hids, containerAt, Path.segments_ofSegments hids]
  exact reach_of_trace h ha _

/-- The entry that a planned move takes out does not hold the target. -/
theorem not_prefix_of_planMove {plan : Plan} (h : cat.planMove id path = .ok plan)
    {p t : List Nat} {e : Entry} (he : cat.root.IsFirst id p e)
    (ht : cat.root.trace (Path.segments path) = some t) : ¬ p <+: t := by
  rintro ⟨r, rfl⟩
  obtain ⟨holder, found, receiver, hsource, hholder, hfound, hcovers, -, -, htarget⟩ :=
    exists_of_planMove h
  obtain ⟨a, i, e', he', hpath⟩ := exists_isFirst_of_locate? hsource
  obtain ⟨rfl, rfl⟩ := he.unique he'
  -- the ids on the way to the entry are the first segments of the target path
  obtain ⟨ids, seg, k, hids, ha, hk, hi⟩ := trace_concat (trace_take ht)
  have hpre : ids ++ [seg] <+: Path.segments path := hids ▸ List.take_prefix _ _
  have hsegment : ∀ s ∈ ids, Path.IsSegment s := fun s hs =>
    Path.isSegment_of_mem_segments (hpre.subset (List.mem_append_left _ hs))
  -- so the container at the path of the entry is the one that holds it
  have hsrc : plan.source = ids.foldl Path.join Path.root := by rw [hpath, idsAt_of_trace ha]
  rw [hsrc, containerAt_foldl_join ha hk hsegment] at hholder
  obtain rfl := Except.ok.inj hholder
  obtain rfl := Option.some.inj ((he.find? hk).symm.trans hfound)
  -- the entry is the category that the target path goes through
  obtain ⟨c, inner, hc, rfl, -⟩ := inner?_of_keys (position?_eq_some_iff.mp hi).1
  have hentry := he.entryAt
  rw [entryAt?_concat, hk, Option.bind_some, hc] at hentry
  obtain rfl := Option.some.inj hentry
  have hid : c.id = id := he.id_eq
  refine hcovers ⟨rfl, ?_⟩
  rw [hsrc, htarget, ← hid, Path.foldl_join_root hsegment, Path.join_ofSegments hsegment]
  exact Path.covers_ofSegments (by simp) hpre

/-! ### Carrying out a plan -/

/-- A planned move takes the first entry with the id out, and adds it at the target, which is where
it was. -/
theorem move_of_planMove {plan : Plan} (h : cat.planMove id path = .ok plan) :
    ∃ p e t receiver rest, cat.root.IsFirst id p e ∧
      cat.root.trace (Path.segments path) = some t ∧ cat.root.at? t = some receiver ∧
      ¬ p <+: t ∧ (cat.root.eraseAt p).trace (Path.segments path) = some (shift p t) ∧
      (cat.root.eraseAt p).at? (shift p t) = some rest ∧
      cat.move id path = ⟨.ok (), { cat with
        root := (cat.root.eraseAt p).modifyAt
          (fun k => (k.add (e.relocate (Path.normal path))).2) (shift p t) }⟩ := by
  obtain ⟨holder, found, receiver, hsource, -, -, -, hreceiver, -, htarget⟩ :=
    exists_of_planMove h
  obtain ⟨a, i, e, he, -⟩ := exists_isFirst_of_locate? hsource
  rw [htarget, containerAt, Path.segments_normal] at hreceiver
  obtain ⟨t, ht, hat⟩ := reach_eq_ok_iff.mp hreceiver
  have hp := not_prefix_of_planMove h he ht
  have ht' := trace_eraseAt ht hp
  obtain ⟨rest, hrest⟩ := exists_at?_of_trace ht'
  refine ⟨a ++ [i], e, t, receiver, rest, he, ht, hat, hp, ht', hrest, ?_⟩
  have hedit : editAt { cat with root := cat.root.eraseAt (a ++ [i]) } (Path.normal path)
      (fun k => k.add (e.relocate (Path.normal path))) = _ :=
    editAt_of_trace (by rwa [Path.segments_normal]) hrest _
  simp only [move, h, removeDeep_of_isFirst he, settle, htarget, hedit]

/-- A move succeeds exactly if it is planned. -/
theorem move_answer_eq_ok_iff :
    (cat.move id path).answer = .ok () ↔ ∃ plan, cat.planMove id path = .ok plan := by
  constructor
  · intro h
    rcases hplan : cat.planMove id path with fault | plan
    · rw [move, hplan] at h
      cases h
    · exact ⟨plan, rfl⟩
  · rintro ⟨plan, h⟩
    obtain ⟨p, e, t, receiver, rest, -, -, -, -, -, -, hmove⟩ := move_of_planMove h
    rw [hmove]

end NodeCatalog.Catalog
