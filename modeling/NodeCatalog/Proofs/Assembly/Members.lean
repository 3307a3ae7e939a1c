import NodeCatalog.Proofs.Assembly.Settled
import NodeCatalog.Proofs.Path.Segments

/-!
# Templates of node sets

A template of a node set brings the categories that its path needs.  Making these on the way and
adding the template at the end comes to the same as inserting them one after the other, each where
its path leads: first the categories, of which none is refused, then the template
(`exists_addMember_eq`).  So no template of a node set is refused (`insertSets_eq`).
-/

namespace NodeCatalog

open Container Catalog

/-- The entry of a category that holds nothing. -/
def Category.entry (sorted : Bool) (c : Category) : Entry :=
  .category c sorted []

theorem Category.entries_eq_nil {sorted : Bool} {c : Category} {inner : Container}
    (h : (c.entry sorted).container? = some inner) : inner.entries = [] := by
  obtain rfl := Option.some.inj h
  rfl

namespace Container

/-! ### Making what is missing -/

/-- A change below a position is a change of the category there. -/
theorem modifyAt_concat (f : Container → Container) (a : List Nat) (i : Nat) (k : Container) :
    k.modifyAt f (a ++ [i]) = k.modifyAt (modifyInner i f) a := by
  induction a generalizing k with
  | nil => rfl
  | cons j a ih =>
    rw [List.cons_append, modifyAt, modifyAt]
    congr 1
    funext inner
    exact ih inner

/-- A category may be added if no other has its id. -/
theorem hasClash_entry_eq_false {k : Container} {c : Category} (sorted : Bool)
    (h : k.position? c.id = none) : k.hasClash (c.entry sorted) = false :=
  hasClash_eq_false_iff.mpr (List.idxOf?_eq_none_iff.mp h)

/-- A category that is appended stands at the end, if no other has its id. -/
theorem position?_append {k : Container} {e : Entry} {id : String} (hkey : e.key = (id, .category))
    (h : k.position? id = none) : (k.append e).position? id = some k.entries.length := by
  have hkeys : (k.append e).keys = k.keys ++ [(id, .category)] := by
    rw [keys, append, List.map_append, List.map_singleton, hkey, keys]
  have hlength : k.keys.length = k.entries.length := List.length_map _
  rw [position?, List.idxOf?_eq_none_iff] at h
  rw [position?_eq_some_iff, hkeys, ← hlength]
  refine ⟨List.getElem?_concat_length, fun j hj heq => h ?_⟩
  rw [List.getElem?_append_left hj] at heq
  exact List.mem_of_getElem? heq

theorem position?_append_category {k : Container} {c : Category} (sorted : Bool)
    (h : k.position? c.id = none) :
    (k.append (c.entry sorted)).position? c.id = some k.entries.length :=
  position?_append rfl h

/-- Where a category is appended, its id leads to it. -/
theorem trace_modifyAt_append_category {k x inner : Container} {ids : List String} {a : List Nat}
    {e : Entry} (ha : k.trace ids = some a) (hx : k.at? a = some x)
    (hinner : e.container? = some inner) (hclash : x.hasClash e = false) :
    (k.modifyAt (append e) a).trace (ids ++ [e.id]) = some (a ++ [x.entries.length]) := by
  obtain ⟨c, rfl⟩ := Entry.container?_eq_some_iff.mp hinner
  have hnone : x.position? c.id = none :=
    List.idxOf?_eq_none_iff.mpr (hasClash_eq_false_iff.mp hclash)
  have hnew : (k.modifyAt (append (.category c inner.sorted inner.entries)) a).at? a =
      some (x.append (.category c inner.sorted inner.entries)) := by
    rw [at?_modifyAt, hx, Option.map_some]
  have hlast : (x.append (.category c inner.sorted inner.entries)).trace [c.id] =
      some [x.entries.length] :=
    trace_cons_eq_some_iff.mpr ⟨_, inner, [], position?_append rfl hnone,
      inner?_append_length _ x, rfl, rfl⟩
  rw [trace_append ((Grows.modifyAt_append k _ a).trace ha) hnew]
  exact congrArg (Option.map (a ++ ·)) hlast

section Ensure

variable {β : Type} {path parent : String} {make : String → String → Category} {sorted : Bool}
  {f : Container → β × Container} {segment : String} {segments : List String}
  {k inner new : Container} {i : Nat} {answer : β}

/-- Where the category is there, its contents are changed. -/
theorem ensure_of_position? (hi : k.position? segment = some i) (hinner : k.inner? i = some inner)
    (h : inner.ensure path make sorted f (Path.join parent segment) segments =
      .ok (answer, new)) :
    k.ensure path make sorted f parent (segment :: segments) =
      .ok (answer, k.modifyInner i fun _ => new) := by
  obtain ⟨c, other, hc, hother, hset⟩ := category?_of_position? hi
  obtain rfl := Option.some.inj (hinner.symm.trans hother)
  simp only [ensure, hc, Option.isSome_some, if_true, h, hset]

/-- Where it is not, all goes on as if it had been there. -/
theorem ensure_of_position?_eq_none (hid : ∀ p, (make segment p).id = segment)
    (hi : k.position? segment = none) :
    k.ensure path make sorted f parent (segment :: segments) =
      (k.append ((make segment parent).entry sorted)).ensure path make sorted f parent
        (segment :: segments) := by
  have hnone : k.position? (make segment parent).id = none := by rw [hid, hi]
  have hnew := position?_append_category sorted hnone
  rw [hid] at hnew
  obtain ⟨c, inner, hc, -, -⟩ := category?_of_position? hnew
  have hadd : (k.add (.category (make segment parent) sorted [])).2 =
      k.append ((make segment parent).entry sorted) := by
    rw [← Category.entry, entries_add_of_not_hasClash (hasClash_entry_eq_false sorted hnone),
      append]
  simp only [ensure, category?_of_position?_eq_none hi, hc, hadd, Option.isSome_none,
    Option.isSome_some, Bool.false_eq_true, if_false, if_true]

end Ensure

end Container

/-! ### Insertions in place of making -/

namespace Catalog

variable {cat : Catalog} {set : NodeSet} {sorted : Bool} {ids segments : List String}

/-- An entry that nothing excludes is appended where its path leads. -/
theorem insert_of_not_hasClash {e : Entry} {a : List Nat} {k : Container}
    (ha : cat.root.trace (Path.segments e.path) = some a) (hk : cat.root.at? a = some k)
    (hclash : k.hasClash e = false) :
    cat.insert e = ⟨.ok true, { cat with root := cat.root.modifyAt (append e) a }⟩ := by
  have hadd : (k.add e).2 = k.append e := by rw [entries_add_of_not_hasClash hclash, append]
  rw [insert, editAt_of_trace ha hk, modifyAt_congr hk hadd, entries_add_of_not_hasClash hclash]

/-- A category is one that the set brings: it stands on a way, below the normal text of what comes
before it, and no category stood there before. -/
def Brings (cat : Catalog) (set : NodeSet) (way : List String) (c : Category) : Prop :=
  ∃ front segment back, way = front ++ segment :: back ∧
    c = madeFor set segment (Path.ofSegments front) ∧ cat.root.trace (front ++ [segment]) = none

/-- The result of making the categories below an address comes to inserting them and changing the
container at the end. -/
def Ensures {β : Type} (cat : Catalog) (set : NodeSet) (sorted : Bool) (way : List String)
    (f : Container → β × Container) (a : List Nat) (result : Except Fault (β × Container)) : Prop :=
  ∃ made mid b inner new,
    Settled (Category.entry sorted) cat mid made [] ∧ (∀ c ∈ made, cat.Brings set way c) ∧
    mid.root.trace way = some b ∧ mid.root.at? b = some inner ∧ result = .ok ((f inner).1, new) ∧
    mid.root.modifyAt (fun x => (f x).2) b = cat.root.modifyAt (fun _ => new) a

theorem ensures {β : Type} {f : Container → β × Container} {path : String} {a : List Nat}
    {k : Container} (hids : ∀ s ∈ ids, Path.IsSegment s)
    (hsegments : ∀ s ∈ segments, Path.IsSegment s) (ha : cat.root.trace ids = some a)
    (hk : cat.root.at? a = some k) :
    cat.Ensures set sorted (ids ++ segments) f a
      (k.ensure path (madeFor set) sorted f (Path.ofSegments ids) segments) := by
  induction segments generalizing cat ids a k with
  | nil =>
    rw [List.append_nil]
    refine ⟨[], cat, a, k, (f k).2, .none, fun _ hc => absurd hc List.not_mem_nil, ha, hk, rfl, ?_⟩
    exact modifyAt_congr hk rfl
  | cons s segments ih =>
    have hids' : ∀ x ∈ ids ++ [s], Path.IsSegment x := by
      intro x hx
      rcases List.mem_append.mp hx with hx | hx
      · exact hids x hx
      · exact List.mem_singleton.mp hx ▸ hsegments s List.mem_cons_self
    -- if the category is there, the way goes on in it
    have hfound : ∀ {cat : Catalog} {a k i}, cat.root.trace ids = some a →
        cat.root.at? a = some k → k.position? s = some i →
        cat.Ensures set sorted (ids ++ s :: segments) f a
          (k.ensure path (madeFor set) sorted f (Path.ofSegments ids) (s :: segments)) := by
      intro cat a k i ha hk hi
      obtain ⟨-, inner, -, hinner, -⟩ := category?_of_position? hi
      have ha' : cat.root.trace (ids ++ [s]) = some (a ++ [i]) := by
        rw [trace_append ha hk, trace_cons_eq_some_iff.mpr ⟨i, inner, [], hi, hinner, rfl, rfl⟩,
          Option.map_some]
      have hk' : cat.root.at? (a ++ [i]) = some inner := by
        rw [at?_append, hk, Option.bind_some, at?, hinner, Option.bind_some, at?]
      obtain ⟨made, mid, b, x, new, hsettled, hmade, hb, hx, hresult, hroot⟩ :=
        ih hids' (fun y hy => hsegments y (List.mem_cons_of_mem _ hy)) ha' hk'
      rw [List.append_assoc, List.singleton_append] at hmade hb
      rw [← Path.join_ofSegments hids] at hresult
      refine ⟨made, mid, b, x, _, hsettled, hmade, hb, hx,
        ensure_of_position? hi hinner hresult, ?_⟩
      rw [hroot, modifyAt_concat]
      exact modifyAt_congr hk rfl
    rcases hi : k.position? s with _ | i
    · -- otherwise it is inserted first, and then it is there
      let c := madeFor set s (Path.ofSegments ids)
      have hpath : Path.segments (c.entry sorted).path = ids := Path.segments_ofSegments hids
      have hinsert := insert_of_not_hasClash (hpath ▸ ha) hk (hasClash_entry_eq_false sorted hi)
      have hgrows : cat.root.Grows (cat.root.modifyAt (append (c.entry sorted)) a) :=
        .modifyAt_append _ _ a
      obtain ⟨made, mid, b, x, new, hsettled, hmade, hb, hx, hresult, hroot⟩ :=
        @hfound { cat with root := cat.root.modifyAt (append (c.entry sorted)) a } a
          (k.append (c.entry sorted)) _ (hgrows.trace ha) (by rw [at?_modifyAt, hk]; rfl)
          (position?_append_category sorted hi)
      have hfirst : Settled (Category.entry sorted) cat
          { cat with root := cat.root.modifyAt (append (c.entry sorted)) a } [c] [] := by
        have hnone : Settled (Category.entry sorted) cat cat [] [] := .none
        have hplaced := hnone.placed (a := c) (congrArg Edited.answer hinsert)
        rwa [hinsert] at hplaced
      refine ⟨c :: made, mid, b, x, new, hfirst.trans hsettled, ?_, hb, hx, ?_, ?_⟩
      · refine List.forall_mem_cons.mpr ⟨⟨ids, s, segments, rfl, rfl, ?_⟩, ?_⟩
        · rw [trace_append ha hk, trace, hi]
          rfl
        · rintro d hd
          obtain ⟨front, segment, back, hway, rfl, hnone⟩ := hmade d hd
          refine ⟨front, segment, back, hway, rfl, ?_⟩
          -- what leads nowhere now led nowhere before
          rcases hbefore : cat.root.trace (front ++ [segment]) with _ | p
          · rfl
          · rw [hgrows.trace hbefore] at hnone
            cases hnone
      · rw [ensure_of_position?_eq_none (fun _ => rfl) hi, hresult]
      · rw [hroot, modifyAt_modifyAt]
        rfl
    · exact hfound ha hk hi

/-- A template is added as if the categories that it needs had been inserted before it. -/
theorem exists_addMember_eq (cat : Catalog) (set : NodeSet) (t : NodeTemplate) :
    ∃ made mid, Settled (Category.entry cat.settings.sortChildren) cat mid made [] ∧
      (∀ c ∈ made, cat.Brings set (Path.segments t.path) c) ∧
      (∃ b, mid.root.trace (Path.segments t.path) = some b) ∧
      cat.addMember set t = mid.insert t.entry := by
  obtain ⟨made, mid, b, inner, new, hsettled, hmade, hb, hinner, hresult, hroot⟩ :=
    @ensures cat set cat.settings.sortChildren [] (Path.segments t.path) _
      (fun k => k.add t.entry) t.path [] cat.root (fun _ hs => absurd hs List.not_mem_nil)
      (fun _ hs => Path.isSegment_of_mem_segments hs) rfl rfl
  refine ⟨made, mid, hsettled, hmade, ⟨b, hb⟩, ?_⟩
  have hinsert : mid.insert t.entry = ⟨.ok (inner.add t.entry).1, { mid with root := new }⟩ := by
    have hpath : mid.root.trace (Path.segments t.entry.path) = some b := hb
    have hedit := editAt_of_trace hpath hinner fun k => k.add t.entry
    rw [insert, hedit, show mid.root.modifyAt (fun x => (x.add t.entry).2) b = new from hroot]
  have hresult' : cat.root.ensure t.path (madeFor set) cat.settings.sortChildren
      (fun k => k.add (.template (.node t))) Path.root (Path.segments t.path) =
      .ok ((inner.add t.entry).1, new) := hresult
  rw [hinsert, addMember, hresult', hsettled.settings_eq]

/-- A template of a node set is not refused. -/
theorem exists_addMember_answer_eq (cat : Catalog) (set : NodeSet) (t : NodeTemplate) :
    ∃ added, (cat.addMember set t).answer = .ok added := by
  obtain ⟨_, mid, -, -, ⟨b, hb⟩, heq⟩ := exists_addMember_eq cat set t
  rw [heq]
  rcases hanswer : (mid.insert t.entry).answer with fault | added
  · exact absurd hanswer (@insert_ne_error_of_trace mid t.entry b hb fault)
  · exact ⟨added, rfl⟩

/-- The catalog after templates of node sets are added one after the other. -/
def withMembers (cat : Catalog) (members : List (NodeSet × NodeTemplate)) : Catalog :=
  members.foldl (fun cat m => (cat.addMember m.1 m.2).catalog) cat

theorem addMembers_eq (cat : Catalog) (set : NodeSet) (ts : List NodeTemplate) :
    ∃ added, cat.addMembers set ts = ⟨.ok added, cat.withMembers (ts.map fun t => (set, t))⟩ := by
  induction ts generalizing cat with
  | nil => exact ⟨[], rfl⟩
  | cons t ts ih =>
    obtain ⟨added, hadded⟩ := exists_addMember_answer_eq cat set t
    obtain ⟨more, hmore⟩ := ih (cat.addMember set t).catalog
    refine ⟨if added then t :: more else more, ?_⟩
    simp only [addMembers, hadded, hmore]
    rfl

end Catalog

namespace Contributions

/-- The templates of node sets, each with its set, in the order in which they are added. -/
def members (sets : List NodeSet) : List (NodeSet × NodeTemplate) :=
  sets.flatMap fun set => set.templates.map fun t => (set, t)

/-- No node set is skipped. -/
theorem insertSets_eq (cat : Catalog) (sets : List NodeSet) :
    insertSets cat sets = (cat.withMembers (members sets), []) := by
  induction sets generalizing cat with
  | nil => rfl
  | cons set sets ih =>
    obtain ⟨added, hadded⟩ := addMembers_eq cat set set.templates
    have hmembers : cat.withMembers (members (set :: sets)) =
        (cat.withMembers (set.templates.map fun t => (set, t))).withMembers (members sets) :=
      List.foldl_append
    simp only [insertSets, addNodeSet, hadded, ih, hmembers]

end Contributions

end NodeCatalog
