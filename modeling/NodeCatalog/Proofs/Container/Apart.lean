import NodeCatalog.Proofs.Container.Growth

/-!
# Trees whose siblings are apart

In such a tree no two siblings share a key (`Container.Apart`).  Nothing else is asked: paths need
not agree with places, and containers may sort or not.  Entries that are apart inside may be put
beside siblings that they do not exclude (`Apart.insert`), entries may be taken out
(`Apart.sublist`, `Apart.eraseAt`) and relocated (`Entry.Apart.relocate`), and a container anywhere
in the tree may be changed by what keeps it apart (`Apart.modifyAt`).

A container can be shown exactly if it does not sort or its keys are different
(`exists_display_iff_nodup`), and a tree can be captured exactly if all its containers can be shown
(`exists_capture_iff`).  So a tree that is apart can be captured (`Apart.exists_capture`).
-/

namespace NodeCatalog

open Container Snapshot

/-! ### Which containers can be shown -/

/-- Keys are different if ids are different within each kind. -/
theorem Entry.nodup_keys_iff {es : List Entry} :
    (es.map key).Nodup ↔ ∀ kind, ((view.ofKind kind es).map id).Nodup := by
  have hkind : ∀ kind, ((view.ofKind kind es).map id).Nodup ↔
      es.Pairwise fun x y => x.kind = kind → y.kind = kind → x.id ≠ y.id := by
    intro kind
    rw [List.Nodup, List.pairwise_map, After.View.ofKind, List.pairwise_filter]
    refine ⟨fun h => h.imp fun hxy hx hy => hxy (beq_iff_eq.mpr hx) (beq_iff_eq.mpr hy), ?_⟩
    exact fun h => h.imp fun hxy hx hy => hxy (beq_iff_eq.mp hx) (beq_iff_eq.mp hy)
  simp only [hkind]
  rw [List.Nodup, List.pairwise_map]
  constructor
  · intro h kind
    exact h.imp fun hne hx hy hid => hne (Prod.ext hid (hx.trans hy.symm))
  · intro h
    refine ((h .category).and (h .leaf)).imp ?_
    rintro x y ⟨hcategory, hleaf⟩ heq
    obtain ⟨hid, hxy⟩ := Prod.mk.inj heq
    cases hx : x.kind with
    | category => exact hcategory hx (hxy ▸ hx) hid
    | leaf => exact hleaf hx (hxy ▸ hx) hid

/-- A container can be shown if it does not sort or no two entries share a key. -/
theorem Container.exists_display_iff_nodup {k : Container} :
    (∃ shown, k.display = .ok shown) ↔ (k.sorted = true → k.keys.Nodup) := by
  obtain ⟨sorted, es⟩ := k
  cases sorted with
  | false => exact ⟨fun _ => nofun, fun _ => ⟨_, rfl⟩⟩
  | true =>
    rw [keys, Entry.nodup_keys_iff]
    refine ⟨fun h _ => nodup_of_display h, fun h => ?_⟩
    obtain ⟨shown, hshown⟩ : ∃ shown, After.order Entry.view es = .ok shown :=
      After.exists_order_eq_ok_iff.mpr (h rfl)
    have hview : Entry.view.comap (fun e => e) = Entry.view := rfl
    refine ⟨shown, ?_⟩
    rw [display, arrange, if_pos rfl, hview, hshown]
    rfl

/-! ### Which trees can be captured -/

/-- Where a container can be shown and the nodes of what each entry holds are given, so are its
nodes. -/
theorem Snapshot.exists_shownNodes {sorted : Bool} {es : List Entry}
    (hdisplay : ∃ shown, display ⟨sorted, es⟩ = .ok shown)
    (hinner : ∀ e ∈ es, ∃ ns, nodesWithin e = .ok ns) :
    ∃ nodes, shownNodes sorted (nodesEach es) = .ok nodes := by
  rw [nodesEach_eq_map]
  obtain ⟨shown, harrange⟩ := (exists_display_iff es).mp hdisplay
  unfold shownNodes
  rw [harrange]
  refine exists_mapM_eq_ok fun p hp => ?_
  obtain ⟨e, he, rfl⟩ := List.mem_map.mp ((perm_of_arrange harrange).mem_iff.mp hp)
  obtain ⟨ns, hns⟩ := hinner e he
  rw [hns]
  exact ⟨_, rfl⟩

theorem Snapshot.exists_nodesWithin {es : List Entry} {path : String}
    (h : ∀ p ∈ containersDeep path es, ∃ shown, p.2.display = .ok shown) :
    ∀ e ∈ es, ∃ ns, nodesWithin e = .ok ns := by
  induction es using Entry.forest_induction generalizing path with
  | nil => exact fun e he => absurd he List.not_mem_nil
  | category c sorted entries rest ihe ihr =>
    rw [containersDeep, containersWithin, List.cons_append] at h
    obtain ⟨hdisplay, h⟩ := List.forall_mem_cons.mp h
    obtain ⟨hentries, hrest⟩ := List.forall_mem_append.mp h
    exact List.forall_mem_cons.mpr ⟨exists_shownNodes hdisplay (ihe hentries), ihr hrest⟩
  | template t rest ihr => exact List.forall_mem_cons.mpr ⟨⟨[], rfl⟩, ihr h⟩

/-- A tree can be captured exactly if all its containers can be shown. -/
theorem Container.exists_capture_iff {k : Container} (path : String) :
    (∃ s, capture k = .ok s) ↔ ∀ p ∈ k.containers path, ∃ shown, p.2.display = .ok shown := by
  refine ⟨fun ⟨s, h⟩ => display_of_capture h path, fun h => ?_⟩
  obtain ⟨hdisplay, hdeep⟩ := List.forall_mem_cons.mp h
  obtain ⟨nodes, hnodes⟩ := exists_shownNodes hdisplay (exists_nodesWithin hdeep)
  exact ⟨⟨nodes⟩, by rw [capture, hnodes]; rfl⟩

/-! ### Siblings that are apart -/

/-- No two siblings share a key, here and everywhere below. -/
def Container.Apart (k : Container) : Prop :=
  ∀ a x, k.at? a = some x → x.keys.Nodup

/-- No two siblings share a key in what an entry holds. -/
def Entry.Apart (e : Entry) : Prop :=
  ∀ inner, e.container? = some inner → inner.Apart

theorem Container.apart_iff {k : Container} :
    k.Apart ↔ k.keys.Nodup ∧ ∀ e ∈ k.entries, e.Apart := by
  constructor
  · refine fun h => ⟨h [] k rfl, fun e he inner hinner a x hx => ?_⟩
    obtain ⟨i, hi⟩ := List.mem_iff_getElem?.mp he
    refine h (i :: a) x ?_
    rw [at?, inner?, hi, Option.bind_some, hinner]
    exact hx
  · rintro ⟨hkeys, hentries⟩ a x hx
    cases a with
    | nil =>
      obtain rfl := Option.some.inj hx
      exact hkeys
    | cons i a =>
      obtain ⟨c, next, he, -, ha⟩ := exists_of_at?_cons hx
      exact hentries _ (List.mem_of_getElem? he) next rfl a x ha

@[simp] theorem Container.apart_nil (sorted : Bool) : Apart ⟨sorted, []⟩ :=
  apart_iff.mpr ⟨List.nodup_nil, fun _ he => absurd he List.not_mem_nil⟩

@[simp] theorem Entry.apart_template (t : Template) : (template t).Apart :=
  nofun

@[simp] theorem Entry.apart_category_iff {c : Category} {sorted : Bool} {entries : List Entry} :
    (category c sorted entries).Apart ↔ Container.Apart ⟨sorted, entries⟩ :=
  ⟨fun h => h _ rfl, fun h _ hinner => Option.some.inj hinner ▸ h⟩

namespace Container.Apart

variable {k : Container} {e : Entry} {es : List Entry} {sorted : Bool}

/-- A container stays apart when entries are taken out, whether or not it sorts then. -/
theorem sublist (h : k.Apart) (hes : es.Sublist k.entries) (sorted : Bool) :
    Apart ⟨sorted, es⟩ := by
  obtain ⟨hkeys, hentries⟩ := apart_iff.mp h
  exact apart_iff.mpr ⟨hkeys.sublist (hes.map _), fun e he => hentries e (hes.subset he)⟩

/-- An entry that is apart inside and excludes no other may be put anywhere among them. -/
theorem insert (h : k.Apart) (he : e.Apart) (hclash : k.hasClash e = false)
    (hes : es.Perm (e :: k.entries)) (sorted : Bool) : Apart ⟨sorted, es⟩ := by
  obtain ⟨hkeys, hentries⟩ := apart_iff.mp h
  refine apart_iff.mpr ⟨?_, fun x hx => ?_⟩
  · refine (hes.map Entry.key).nodup_iff.mpr (List.nodup_cons.mpr ⟨?_, hkeys⟩)
    exact hasClash_eq_false_iff.mp hclash
  · rcases List.mem_cons.mp (hes.mem_iff.mp hx) with rfl | hx
    · exact he
    · exact hentries x hx

/-! ### Changes below -/

theorem modifyInner (h : k.Apart) {i : Nat} {f : Container → Container}
    (hf : ∀ inner, k.inner? i = some inner → (f inner).Apart) : (k.modifyInner i f).Apart := by
  obtain ⟨hkeys, hentries⟩ := apart_iff.mp h
  refine apart_iff.mpr ⟨by rwa [keys_modifyInner], fun e he inner hinner => ?_⟩
  obtain ⟨j, hj⟩ := List.mem_iff_getElem?.mp he
  rw [Container.modifyInner, List.getElem?_modify] at hj
  obtain ⟨x, hx, rfl⟩ := Option.map_eq_some_iff.mp hj
  by_cases hij : i = j
  · subst hij
    rw [if_pos rfl, Entry.container?_mapContainer] at hinner
    obtain ⟨next, hnext, rfl⟩ := Option.map_eq_some_iff.mp hinner
    exact hf next (by rw [inner?, hx, Option.bind_some, hnext])
  · rw [if_neg hij] at hinner
    exact hentries x (List.mem_of_getElem? hx) inner hinner

/-- A tree stays apart if a container in it is changed and does. -/
theorem modifyAt (h : k.Apart) {a : List Nat} {x : Container} {f : Container → Container}
    (hx : k.at? a = some x) (hf : (f x).Apart) : (k.modifyAt f a).Apart := by
  induction a generalizing k with
  | nil =>
    obtain rfl := Option.some.inj hx
    exact hf
  | cons i a ih =>
    refine h.modifyInner fun inner hinner => ?_
    rw [at?, hinner, Option.bind_some] at hx
    exact ih (fun b y hy => h (i :: b) y (by rw [at?, hinner]; exact hy)) hx

/-- A tree stays apart when an entry is taken out. -/
theorem eraseAt (h : k.Apart) (a : List Nat) : (k.eraseAt a).Apart := by
  induction a generalizing k with
  | nil => exact h
  | cons i a ih =>
    by_cases ha : a = []
    · subst ha
      exact h.sublist (List.eraseIdx_sublist _ _) k.sorted
    · rw [eraseAt_cons ha]
      exact h.modifyInner fun inner hinner => ih fun b y hy =>
        h (i :: b) y (by rw [at?, hinner]; exact hy)

end Container.Apart

/-! ### Relocating -/

theorem Entry.map_key_relocateAll (path : String) (es : List Entry) :
    (relocateAll path es).map key = es.map key := by
  rw [relocateAll_eq_map, List.map_map]
  exact List.map_congr_left fun e _ => key_relocate path e

/-- Relocated entries are apart inside where the entries were. -/
theorem Entry.apart_of_mem_relocateAll {es : List Entry} (h : ∀ e ∈ es, e.Apart) {path : String} :
    ∀ e ∈ relocateAll path es, e.Apart := by
  induction es using Entry.forest_induction generalizing path with
  | nil => exact h
  | category c sorted entries rest ihe ihr =>
    obtain ⟨hfirst, hrest⟩ := List.forall_mem_cons.mp h
    obtain ⟨hkeys, hentries⟩ := apart_iff.mp (apart_category_iff.mp hfirst)
    refine List.forall_mem_cons.mpr ⟨apart_category_iff.mpr (apart_iff.mpr ⟨?_, ihe hentries⟩),
      ihr hrest⟩
    rw [keys, map_key_relocateAll]
    exact hkeys
  | template t rest ihr =>
    obtain ⟨-, hrest⟩ := List.forall_mem_cons.mp h
    exact List.forall_mem_cons.mpr ⟨apart_template _, ihr hrest⟩

theorem Entry.Apart.relocate {e : Entry} (h : e.Apart) (path : String) : (e.relocate path).Apart :=
  @apart_of_mem_relocateAll [e] (fun _ hx => List.mem_singleton.mp hx ▸ h) path _
    List.mem_cons_self

/-! ### Showing trees that are apart -/

theorem Container.apart_of_mem_containersDeep {es : List Entry} (h : ∀ e ∈ es, e.Apart)
    {path : String} : ∀ p ∈ containersDeep path es, p.2.Apart := by
  induction es using Entry.forest_induction generalizing path with
  | nil => exact fun p hp => absurd hp List.not_mem_nil
  | category c sorted entries rest ihe ihr =>
    obtain ⟨hfirst, hrest⟩ := List.forall_mem_cons.mp h
    have hinner := Entry.apart_category_iff.mp hfirst
    rw [containersDeep, containersWithin, List.cons_append]
    exact List.forall_mem_cons.mpr
      ⟨hinner, List.forall_mem_append.mpr ⟨ihe (apart_iff.mp hinner).2, ihr hrest⟩⟩
  | template t rest ihr => exact ihr (List.forall_mem_cons.mp h).2

namespace Container.Apart

variable {k : Container}

/-- A tree that is apart is apart in each container. -/
theorem at? (h : k.Apart) {a : List Nat} {x : Container} (hx : k.at? a = some x) : x.Apart := by
  intro b y hy
  refine h (a ++ b) y ?_
  rw [at?_append, hx]
  exact hy

theorem exists_display (h : k.Apart) : ∃ shown, k.display = .ok shown :=
  exists_display_iff_nodup.mpr fun _ => (apart_iff.mp h).1

/-- A tree that is apart can be captured. -/
theorem exists_capture (h : k.Apart) : ∃ s, capture k = .ok s := by
  refine (exists_capture_iff Path.root).mpr (List.forall_mem_cons.mpr ⟨h.exists_display, ?_⟩)
  exact fun p hp => (apart_of_mem_containersDeep (apart_iff.mp h).2 p hp).exists_display

end Container.Apart

end NodeCatalog
