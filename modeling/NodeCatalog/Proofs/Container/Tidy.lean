import NodeCatalog.Proofs.Container.First
import NodeCatalog.Proofs.Path.Segments

/-!
# Tidy trees

In a tidy tree siblings have different keys, all containers sort alike, and every entry is declared
below the path that its place has: the segments of its path are the ids of the categories around it.
Since segments are never blank and hold no slash, a category whose id is not a segment holds nothing
in a tidy tree, and this is what makes paths and places agree: the ids along an address lead to it
(`Tidy.trace_idsAt`).

Trees stay tidy when an entry is added where its path leads (`Tidy.add`), taken out
(`Tidy.eraseAt`), or relocated (`Entry.Fits.relocate`), and when the categories that a path needs
are made (`Tidy.ensure`).
-/

namespace NodeCatalog

namespace Container

/-- A container is tidy below the categories with the given ids. -/
inductive Tidy (sorted : Bool) : List String → Container → Prop
  | mk {ids : List String} {k : Container} (flag : k.sorted = sorted) (distinct : k.keys.Nodup)
    (placed : ∀ e ∈ k.entries, Path.segments e.path = ids)
    (inner : ∀ e ∈ k.entries, ∀ k', e.container? = some k' → Tidy sorted (ids ++ [e.id]) k') :
    Tidy sorted ids k

end Container

open Container

/-- An entry may stand in a tidy container below the categories with the given ids. -/
structure Entry.Fits (sorted : Bool) (ids : List String) (e : Entry) : Prop where
  placed : Path.segments e.path = ids
  inner : ∀ k, e.container? = some k → Tidy sorted (ids ++ [e.id]) k

namespace Container.Tidy

variable {sorted : Bool} {ids : List String} {k : Container}

theorem flag (h : Tidy sorted ids k) : k.sorted = sorted := by
  cases h
  assumption

theorem distinct (h : Tidy sorted ids k) : k.keys.Nodup := by
  cases h
  assumption

theorem fits (h : Tidy sorted ids k) {e : Entry} (he : e ∈ k.entries) : e.Fits sorted ids := by
  cases h with
  | mk _ _ placed inner => exact ⟨placed e he, inner e he⟩

theorem of_fits (flag : k.sorted = sorted) (distinct : k.keys.Nodup)
    (fits : ∀ e ∈ k.entries, e.Fits sorted ids) : Tidy sorted ids k :=
  .mk flag distinct (fun e he => (fits e he).placed) fun e he => (fits e he).inner

theorem empty (sorted : Bool) (ids : List String) : Tidy sorted ids ⟨sorted, []⟩ :=
  of_fits rfl List.nodup_nil fun _ he => absurd he List.not_mem_nil

/-- Only categories with segments as ids hold something. -/
theorem isSegment (h : Tidy sorted ids k) (hne : k.entries ≠ []) :
    ∀ s ∈ ids, Path.IsSegment s := by
  obtain ⟨e, he⟩ := List.exists_mem_of_ne_nil _ hne
  intro s hs
  rw [← (h.fits he).placed] at hs
  exact Path.isSegment_of_mem_segments hs

/-! ### Places and paths -/

/-- A tidy tree is tidy at every address. -/
theorem at? (h : Tidy sorted ids k) {a : List Nat} {k' : Container} (ha : k.at? a = some k') :
    Tidy sorted (ids ++ k.idsAt a) k' := by
  induction a generalizing ids k with
  | nil =>
    obtain rfl := Option.some.inj ha
    rwa [idsAt, List.append_nil]
  | cons i a ih =>
    obtain ⟨c, next, he, -, ha⟩ := exists_of_at?_cons ha
    rw [idsAt_cons he, ← List.singleton_append, ← List.append_assoc]
    exact ih ((h.fits (List.mem_of_getElem? he)).inner next rfl) ha

/-- The ids along an address lead to it. -/
theorem trace_idsAt (h : Tidy sorted ids k) {a : List Nat} {k' : Container}
    (ha : k.at? a = some k') : k.trace (k.idsAt a) = some a := by
  induction a generalizing ids k with
  | nil => rfl
  | cons i a ih =>
    obtain ⟨c, next, he, hnext, ha⟩ := exists_of_at?_cons ha
    have hinner := (h.fits (List.mem_of_getElem? he)).inner next rfl
    -- no other sibling has the key of the category, so it is the first one with its id
    have hkey : k.keys[i]? = some (c.id, .category) :=
      getElem?_keys_eq_some_iff.mpr ⟨_, he, rfl⟩
    have hpos : k.position? c.id = some i := by
      refine position?_eq_some_iff.mpr ⟨hkey, ?_⟩
      intro j hj heq
      have hlt : j < k.keys.length := (List.getElem?_eq_some_iff.mp heq).1
      have hji : j = i := (List.getElem?_inj hlt h.distinct).mp (heq.trans hkey.symm)
      omega
    rw [idsAt_cons he]
    exact trace_cons_eq_some_iff.mpr ⟨i, next, a, hpos, hnext, ih hinner ha, rfl⟩

/-! ### Changes below -/

/-- A tidy tree stays tidy if what a category holds does. -/
theorem modifyInner (h : Tidy sorted ids k) {i : Nat} {f : Container → Container}
    (hf : ∀ e k', k.entries[i]? = some e → e.container? = some k' →
      Tidy sorted (ids ++ [e.id]) (f k')) :
    Tidy sorted ids (k.modifyInner i f) := by
  refine of_fits h.flag (by rw [keys_modifyInner]; exact h.distinct) ?_
  intro e he
  obtain ⟨j, hj⟩ := List.mem_iff_getElem?.mp he
  rw [Container.modifyInner, List.getElem?_modify] at hj
  obtain ⟨x, hx, rfl⟩ := Option.map_eq_some_iff.mp hj
  have hfits := h.fits (List.mem_of_getElem? hx)
  by_cases hij : i = j
  · subst hij
    rw [if_pos rfl]
    refine ⟨by cases x <;> exact hfits.placed, ?_⟩
    intro k' hk'
    rw [Entry.container?_mapContainer] at hk'
    obtain ⟨next, hnext, rfl⟩ := Option.map_eq_some_iff.mp hk'
    rw [Entry.id_mapContainer]
    exact hf x next hx hnext
  · rw [if_neg hij]
    exact hfits

theorem modifyAt (h : Tidy sorted ids k) {a : List Nat} {k' : Container}
    {f : Container → Container} (ha : k.at? a = some k')
    (hf : Tidy sorted (ids ++ k.idsAt a) (f k')) : Tidy sorted ids (k.modifyAt f a) := by
  induction a generalizing ids k with
  | nil =>
    obtain rfl := Option.some.inj ha
    rwa [idsAt, List.append_nil] at hf
  | cons i a ih =>
    obtain ⟨c, next, he, -, ha⟩ := exists_of_at?_cons ha
    rw [idsAt_cons he, ← List.singleton_append, ← List.append_assoc] at hf
    apply h.modifyInner
    intro x k₁ hx hk₁
    obtain rfl := Option.some.inj (he.symm.trans hx)
    obtain rfl := Option.some.inj hk₁
    exact ih ((h.fits (List.mem_of_getElem? he)).inner next rfl) ha hf

/-- A tidy tree stays tidy when an entry is taken out. -/
theorem eraseAt (h : Tidy sorted ids k) (a : List Nat) : Tidy sorted ids (k.eraseAt a) := by
  induction a generalizing ids k with
  | nil => exact h
  | cons i a ih =>
    by_cases ha : a = []
    · subst ha
      refine of_fits h.flag ?_ fun e he => h.fits (List.mem_of_mem_eraseIdx he)
      rw [keys_eraseAt_singleton]
      exact h.distinct.eraseIdx i
    · rw [eraseAt_cons ha]
      exact h.modifyInner fun e k' he hk' => ih ((h.fits (List.mem_of_getElem? he)).inner k' hk')

/-- A tidy container stays tidy when an entry that fits is added. -/
theorem add (h : Tidy sorted ids k) {e : Entry} (he : e.Fits sorted ids) :
    Tidy sorted ids (k.add e).2 := by
  rcases hclash : k.hasClash e with _ | _
  · rw [entries_add_of_not_hasClash hclash]
    refine of_fits h.flag ?_ ?_
    · rw [keys, List.map_append, List.map_singleton, List.nodup_append]
      refine ⟨h.distinct, by simp, ?_⟩
      intro x hx y hy
      rw [List.mem_singleton.mp hy]
      rintro rfl
      exact hasClash_eq_false_iff.mp hclash hx
    · intro x hx
      rcases List.mem_append.mp hx with hx | hx
      · exact h.fits hx
      · rw [List.mem_singleton.mp hx]
        exact he
  · rw [entries_add_of_hasClash hclash]
    exact h

end Container.Tidy

/-- A category that fits has a segment as its id if it holds something. -/
theorem Entry.Fits.isSegment_id {sorted : Bool} {ids : List String} {e : Entry} {k : Container}
    (h : e.Fits sorted ids) (hk : e.container? = some k) (hne : k.entries ≠ []) :
    Path.IsSegment e.id :=
  (h.inner k hk).isSegment hne e.id (List.mem_append_right _ (List.mem_singleton_self _))

/-- A container that holds just an entry that fits is tidy. -/
theorem Entry.Fits.tidy {sorted : Bool} {ids : List String} {e : Entry} (h : e.Fits sorted ids) :
    Tidy sorted ids ⟨sorted, [e]⟩ := by
  refine Tidy.of_fits rfl (List.pairwise_singleton _ _) ?_
  intro x hx
  rw [List.mem_singleton.mp hx]
  exact h

/-- A category without contents fits where its path says. -/
theorem Entry.category_fits (sorted : Bool) (c : Category) :
    (category c sorted []).Fits sorted (Path.segments c.path) := by
  refine ⟨rfl, ?_⟩
  intro k hk
  obtain rfl := Option.some.inj hk
  exact Tidy.empty sorted _

theorem Entry.template_fits (sorted : Bool) (t : Template) :
    (template t).Fits sorted (Path.segments t.path) :=
  ⟨rfl, nofun⟩

/-! ### Relocating -/

@[simp] theorem Entry.key_relocate (path : String) (e : Entry) : (e.relocate path).key = e.key := by
  rw [key, id_relocate, kind_relocate, key]

/-- What a relocated category holds is relocated below the path that the category has then. -/
theorem Entry.container?_relocate (path : String) (e : Entry) :
    (e.relocate path).container? =
      e.container?.map fun k => ⟨k.sorted, relocateAll (Path.join path e.id) k.entries⟩ := by
  cases e <;> rfl

/-- Tidy contents stay tidy below another path; if there are none, the path does not matter. -/
theorem Container.Tidy.relocate {sorted : Bool} {ids : List String} {k : Container}
    (h : Tidy sorted ids k) {path : String} {ids' : List String}
    (hpath : k.entries ≠ [] → Path.segments path = ids') :
    Tidy sorted ids' ⟨k.sorted, Entry.relocateAll path k.entries⟩ := by
  induction h generalizing path ids' with
  | @mk ids k flag distinct placed inner ih =>
    rw [Entry.relocateAll_eq_map]
    refine of_fits flag ?_ ?_
    · rwa [keys, List.map_map, Function.comp_def, funext (Entry.key_relocate path)]
    · intro x hx
      obtain ⟨e, he, rfl⟩ := List.mem_map.mp hx
      have hids' := hpath (List.ne_nil_of_mem he)
      refine ⟨by rw [Entry.path_relocate, hids'], ?_⟩
      intro k' hk'
      rw [Entry.container?_relocate] at hk'
      obtain ⟨next, hnext, rfl⟩ := Option.map_eq_some_iff.mp hk'
      rw [Entry.id_relocate]
      have hfits : e.Fits _ ids := ⟨placed e he, inner e he⟩
      refine ih e he next hnext ?_
      intro hne
      rw [Path.segments_join, hids', hfits.isSegment_id hnext hne]

/-- An entry that fits somewhere fits wherever it is relocated to. -/
theorem Entry.Fits.relocate {sorted : Bool} {ids : List String} {e : Entry}
    (h : e.Fits sorted ids) (path : String) :
    (e.relocate path).Fits sorted (Path.segments path) :=
  (h.tidy.relocate fun _ => rfl).fits (List.mem_singleton_self _)

/-! ### Making categories -/

/-- A tidy tree stays tidy when the categories on the way to a container are made and the container
is changed to a tidy one. -/
theorem Container.Tidy.ensure {sorted : Bool} {β : Type} {path parent : String}
    {make : String → String → Category} {f : Container → β × Container} {segs ids : List String}
    {k k' : Container} {answer : β} (h : Tidy sorted ids k) (hsegs : ∀ s ∈ segs, Path.IsSegment s)
    (hparent : Path.segments parent = ids) (hpath : ∀ s p, (make s p).path = p)
    (hf : ∀ inner, Tidy sorted (ids ++ segs) inner → Tidy sorted (ids ++ segs) (f inner).2)
    (hrun : k.ensure path make sorted f parent segs = .ok (answer, k')) : Tidy sorted ids k' := by
  induction segs generalizing ids k k' parent with
  | nil =>
    rw [Container.ensure, Except.ok.injEq] at hrun
    have := hf k (by rwa [List.append_nil])
    rwa [List.append_nil, hrun] at this
  | cons s segs ih =>
    rw [Container.ensure] at hrun
    have hmade : Tidy sorted ids (if (k.category? s).isSome then k
        else (k.add (.category (make s parent) sorted [])).2) := by
      split
      · exact h
      · have hfits := Entry.category_fits sorted (make s parent)
        rw [hpath, hparent] at hfits
        exact h.add hfits
    generalize (if (k.category? s).isSome then k
      else (k.add (.category (make s parent) sorted [])).2) = made at hrun hmade
    -- a category with the segment as its id is there now
    rcases hpos : made.position? s with _ | i
    · rw [category?_of_position?_eq_none hpos] at hrun
      cases hrun
    · obtain ⟨c, inner, hc, hinner, hset⟩ := category?_of_position? hpos
      rcases hrest : inner.ensure path make sorted f (Path.join parent s) segs with fault | ⟨b, new⟩
      · simp only [hc, hrest, reduceCtorEq] at hrun
      simp only [hc, hrest, Except.ok.injEq, Prod.mk.injEq] at hrun
      obtain ⟨rfl, rfl⟩ := hrun
      rw [hset]
      apply hmade.modifyInner
      intro x next hx hnext
      have hxs : x.id = s := by
        obtain ⟨d, _, hd, hds, -⟩ := inner?_of_keys (position?_eq_some_iff.mp hpos).1
        rw [hx] at hd
        rw [Option.some.inj hd]
        exact hds
      obtain rfl : next = inner := by
        rw [inner?, hx, Option.bind_some, hnext] at hinner
        exact Option.some.inj hinner
      have htidy := (hmade.fits (List.mem_of_getElem? hx)).inner next hnext
      rw [hxs] at htidy ⊢
      refine ih htidy (fun y hy => hsegs y (List.mem_cons_of_mem _ hy)) ?_ ?_ hrest
      · -- the parent of the next segment is the category that was found or made
        rw [Path.segments_join, hparent, hsegs s List.mem_cons_self]
      · intro k₁ hk₁
        rw [List.append_assoc, List.singleton_append] at hk₁ ⊢
        exact hf k₁ hk₁

end NodeCatalog
