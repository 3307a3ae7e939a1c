import NodeCatalog.Proofs.Assembly.Anchored
import NodeCatalog.Proofs.Assembly.Stages
import NodeCatalog.Proofs.Snapshot.Determined

/-!
# What is expected of an assembled tree

Contributions none of which excludes another are all placed, but for those whose paths never lead
anywhere.  Paths lead to the anchored addresses, and with node sets to all addresses on the way to
their templates (`Reached`).  So what the tree holds in the end can be said without the order in
which it came (`Expected`): the categories that are anchored, those that the node sets bring, and
the templates whose paths lead somewhere.

This holds when the categories are placed (`meets_categories`).  Each template of a node set keeps
it (`Meets.addMember`), and so does each node and each meta node (`Meets.insert`).
-/

namespace NodeCatalog

open Container Catalog

/-! ### Items and spots -/

/-- What no two templates may share: where they are declared, and the id. -/
def Template.place (t : Template) : List String × String :=
  (Path.segments t.path, t.id)

namespace Entry

variable {items : List Entry} {ids : List String}

theorem exists_of_category_mem_spots {c : Category} {sorted : Bool}
    (h : (ids, category c sorted []) ∈ items.map spot) :
    ∃ d, category d sorted [] ∈ items ∧ Path.segments d.path = ids ∧ d.id = c.id := by
  obtain ⟨e, he, heq⟩ := List.mem_map.mp h
  obtain ⟨hids, hplain⟩ := Prod.mk.inj heq
  cases e with
  | template t => cases hplain
  | category d sorted' entries =>
    obtain ⟨hd, rfl, rfl⟩ := Entry.category.inj hplain
    exact ⟨d, he, hids, hd ▸ rfl⟩

end Entry

namespace Catalog.Holds

variable {settings : Settings} {items : List Entry} {cat : Catalog} {e : Entry}

/-- Paths lead to the categories among the items, and to the root. -/
theorem leads_iff (h : cat.Holds settings items) {ids : List String} :
    (∃ a, cat.root.trace ids = some a) ↔
      ids = [] ∨ ∃ c sorted, .category c sorted [] ∈ items ∧
        Path.segments c.path ++ [c.id] = ids := by
  constructor
  · rintro ⟨a, ha⟩
    obtain ⟨k, hk⟩ := exists_at?_of_trace ha
    rcases List.eq_nil_or_concat' a with rfl | ⟨a, i, rfl⟩
    · exact .inl (idsAt_of_trace ha).symm
    · obtain ⟨-, c, -, he⟩ := exists_of_at?_concat hk
      obtain ⟨hitem, hids⟩ := h.item_of_entryAt? he
      exact .inr ⟨c, _, hitem, hids.trans (idsAt_of_trace ha)⟩
  · rintro (rfl | ⟨c, sorted, hc, rfl⟩)
    · exact ⟨[], rfl⟩
    · exact h.trace_of_item hc

/-- An insertion that adds nothing is refused for an item with the same place. -/
theorem exists_of_insert_eq_false (h : cat.Holds settings items)
    (hanswer : (cat.insert e).answer = .ok false) :
    ∃ d ∈ items, Path.segments d.path = Path.segments e.path ∧ d.key = e.key := by
  obtain ⟨a, k, ha, hk, hclash⟩ := Catalog.exists_of_insert_eq_false hanswer
  have hkey : e.key ∈ k.keys := by
    by_contra hkey
    rw [hasClash_eq_false_iff.mpr hkey] at hclash
    cases hclash
  rw [keys_eq_map_row, h.rows a k hk] at hkey
  obtain ⟨d, hd, hdkey⟩ := List.mem_map.mp hkey
  obtain ⟨hitem, hids⟩ := List.mem_filter.mp hd
  exact ⟨d, hitem, (of_decide_eq_true hids).trans (idsAt_of_trace ha), hdkey⟩

end Catalog.Holds

/-- A template of a node set that nothing excludes is one more item, after a category for each part
of its path that led nowhere. -/
theorem Catalog.Holds.exists_addMember {settings : Settings} {items : List Entry} {cat : Catalog}
    (h : cat.Holds settings items) (set : NodeSet) {t : NodeTemplate}
    (hnew : ∀ d ∈ items, Path.segments d.path = Path.segments t.path → d.key ≠ t.entry.key) :
    ∃ made : List Category,
      (cat.addMember set t).catalog.Holds settings
        (items ++ made.map (Category.entry settings.sortChildren) ++ [t.entry]) ∧
      ∀ x, x ∈ (made.map (Category.entry settings.sortChildren)).map Entry.spot ↔
        ∃ front segment, front ++ [segment] <+: Path.segments t.path ∧
          (¬∃ a, cat.root.trace (front ++ [segment]) = some a) ∧
          x = (front, ((Category.named segment segment).entry settings.sortChildren).plain) := by
  obtain ⟨made, mid, hsettled, hmade, ⟨b, hb⟩, heq⟩ := exists_addMember_eq cat set t
  rw [h.tidyFor.settings_eq] at hsettled
  have hmid := hsettled.holds h fun c _ => Entry.fresh_category _ c
  refine ⟨made, ?_, fun x => ?_⟩
  · -- the template is added, since no item excludes it
    rcases hanswer : (mid.insert t.entry).answer with fault | _ | _
    · exact absurd hanswer (@insert_ne_error_of_trace mid t.entry b hb fault)
    · obtain ⟨d, hd, hpath, hkey⟩ := hmid.exists_of_insert_eq_false hanswer
      rcases List.mem_append.mp hd with hd | hd
      · exact absurd hkey (hnew d hd hpath)
      · obtain ⟨c, -, rfl⟩ := List.mem_map.mp hd
        cases (Prod.mk.inj hkey).2
    · rw [heq]
      exact hmid.insert (Entry.fresh_template _ _) hanswer
  · constructor
    · intro hx
      obtain ⟨e, he, rfl⟩ := List.mem_map.mp hx
      obtain ⟨c, hc, rfl⟩ := List.mem_map.mp he
      obtain ⟨front, segment, back, hway, rfl, hnone⟩ := hmade c hc
      refine ⟨front, segment, ⟨back, ?_⟩, ?_, Prod.ext (Path.segments_ofSegments ?_) rfl⟩
      · rw [hway, List.append_assoc, List.singleton_append]
      · rintro ⟨a, ha⟩
        cases ha.symm.trans hnone
      · exact Path.isSegment_of_segments_eq_append hway
    · rintro ⟨front, segment, habove, hnone, rfl⟩
      -- the path leads through a category there in the end, which was not there before
      rcases hmid.leads_iff.mp (exists_trace_above habove hb) with
        hnil | ⟨d, sorted, hd, haddress⟩
      · simp at hnil
      rcases List.mem_append.mp hd with hd | hd
      · exact absurd (h.leads_iff.mpr (.inr ⟨d, sorted, hd, haddress⟩)) hnone
      · refine List.mem_map.mpr ⟨_, hd, ?_⟩
        obtain ⟨c, hc, hentry⟩ := List.mem_map.mp hd
        obtain ⟨rfl, rfl, -⟩ := Entry.category.inj hentry
        obtain ⟨_, segment', -, -, rfl, -⟩ := hmade c hc
        obtain ⟨hfront, hsegment⟩ := List.append_inj' haddress rfl
        obtain rfl : segment' = segment := List.singleton_inj.mp hsegment
        exact Prod.ext hfront rfl

/-! ### What is expected -/

/-- Where paths lead: to anchored addresses, and on the way to the templates of node sets. -/
def Reached (bs : List Branch) (ms : List NodeTemplate) (ids : List String) : Prop :=
  Anchored bs ids ∨ ∃ t ∈ ms, ids <+: Path.segments t.path

/-- The spots that are expected of a tree: of categories that are contributed, of templates of node
sets with the categories that they bring, and of templates. -/
inductive Expected (sorted : Bool) (bs : List Branch) (ms : List NodeTemplate)
    (ts : List Template) : List String × Entry → Prop where
  | category {b : Branch} : b ∈ bs → Anchored bs (Path.segments b.category.path) →
      Expected sorted bs ms ts (b.category.entry sorted).spot
  /-- A category is brought where none is anchored; its segment is its id and its name. -/
  | brought {front : List String} {segment : String} : Reached bs ms (front ++ [segment]) →
      ¬Anchored bs (front ++ [segment]) →
      Expected sorted bs ms ts (front, ((Category.named segment segment).entry sorted).plain)
  | template {t : Template} : t ∈ ts → Reached bs ms (Path.segments t.path) →
      Expected sorted bs ms ts (Entry.template t).spot

/-- A tree holds just what is expected. -/
def Catalog.Meets (settings : Settings) (bs : List Branch) (ms : List NodeTemplate)
    (ts : List Template) (cat : Catalog) : Prop :=
  ∃ items, cat.Holds settings items ∧
    ∀ x, x ∈ items.map Entry.spot ↔ Expected settings.sortChildren bs ms ts x

namespace Catalog.Meets

variable {settings : Settings} {bs : List Branch} {ms : List NodeTemplate} {ts : List Template}
  {cat : Catalog}

/-- Paths lead where they are expected to lead. -/
theorem leads_iff (h : cat.Meets settings bs ms ts) {ids : List String} :
    (∃ a, cat.root.trace ids = some a) ↔ Reached bs ms ids := by
  obtain ⟨items, hholds, hspots⟩ := h
  rw [hholds.leads_iff]
  constructor
  · rintro (rfl | ⟨c, sorted, hc, rfl⟩)
    · exact .inl .root
    · have hexpected := (hspots _).mp (List.mem_map_of_mem hc)
      generalize hx : Entry.spot (.category c sorted []) = x at hexpected
      cases hexpected with
      | @category b hb hpath =>
        obtain ⟨hids, hplain⟩ := Prod.mk.inj hx
        have hid : c.id = b.category.id := congrArg Entry.id hplain
        have haddress : Path.segments c.path ++ [c.id] = b.address :=
          congrArg₂ (fun ids id => ids ++ [id]) hids hid
        exact .inl (haddress ▸ .child hb hpath)
      | @brought front segment hreached _ =>
        obtain ⟨rfl, hplain⟩ := Prod.mk.inj hx
        have hid : c.id = segment := congrArg Entry.id hplain
        rwa [hid]
      | template _ _ => cases (Prod.mk.inj hx).2
  · intro hreached
    by_cases hanchored : Anchored bs ids
    · cases hanchored with
      | root => exact .inl rfl
      | @child b hb hpath =>
        obtain ⟨d, hd, hids, hid⟩ :=
          Entry.exists_of_category_mem_spots ((hspots _).mpr (.category hb hpath))
        exact .inr ⟨d, _, hd, by rw [hids, hid]; rfl⟩
    · rcases List.eq_nil_or_concat' ids with rfl | ⟨front, segment, rfl⟩
      · exact .inl rfl
      · obtain ⟨d, hd, rfl, hid⟩ :=
          Entry.exists_of_category_mem_spots ((hspots _).mpr (.brought hreached hanchored))
        exact .inr ⟨d, _, hd, by rw [hid]; rfl⟩

end Catalog.Meets

section Step

variable {sorted : Bool} {bs : List Branch} {ms : List NodeTemplate} {ts ts' : List Template}
  {t : Template} {items : List Entry}

/-- One template more is expected where its path leads, if it leads anywhere. -/
theorem expected_insert_iff (hts : ∀ u, u ∈ ts' ↔ u ∈ ts ∨ u = t) {x : List String × Entry} :
    Expected sorted bs ms ts' x ↔ Expected sorted bs ms ts x ∨
      Reached bs ms (Path.segments t.path) ∧ x = (Entry.template t).spot := by
  constructor
  · intro h
    cases h with
    | category hb hpath => exact .inl (.category hb hpath)
    | brought hreached hanchored => exact .inl (.brought hreached hanchored)
    | @template u hu hreached =>
      rcases (hts u).mp hu with hu | rfl
      · exact .inl (.template hu hreached)
      · exact .inr ⟨hreached, rfl⟩
  · rintro (h | ⟨hreached, rfl⟩)
    · cases h with
      | category hb hpath => exact .category hb hpath
      | brought hreached hanchored => exact .brought hreached hanchored
      | template hu hreached => exact .template ((hts _).mpr (.inl hu)) hreached
    · exact .template ((hts t).mpr (.inr rfl)) hreached

/-- With one more template of a node set that template is expected, and a category for each part of
its path that led nowhere. -/
theorem expected_concat_iff {t : NodeTemplate} {x : List String × Entry} :
    Expected sorted bs (ms ++ [t]) ((ms ++ [t]).map .node) x ↔
      Expected sorted bs ms (ms.map .node) x ∨
      (∃ front segment, front ++ [segment] <+: Path.segments t.path ∧
        ¬Reached bs ms (front ++ [segment]) ∧
        x = (front, ((Category.named segment segment).entry sorted).plain)) ∨
      x = t.entry.spot := by
  have hreached : ∀ ids, Reached bs (ms ++ [t]) ids ↔
      Reached bs ms ids ∨ ids <+: Path.segments t.path := by
    intro ids
    simp only [Reached, List.mem_append, List.mem_singleton, or_and_right, exists_or,
      exists_eq_left, or_assoc]
  constructor
  · intro h
    cases h with
    | category hb hpath => exact .inl (.category hb hpath)
    | @brought front segment h hanchored =>
      by_cases hold : Reached bs ms (front ++ [segment])
      · exact .inl (.brought hold hanchored)
      · exact .inr (.inl ⟨front, segment, ((hreached _).mp h).resolve_left hold, hold, rfl⟩)
    | template hmember _ =>
      obtain ⟨u, hu, rfl⟩ := List.mem_map.mp hmember
      rcases List.mem_append.mp hu with hu | hu
      · -- a template of a node set makes its own path lead somewhere
        exact .inl (.template (List.mem_map_of_mem hu) (.inr ⟨u, hu, List.prefix_refl _⟩))
      · obtain rfl := List.mem_singleton.mp hu
        exact .inr (.inr rfl)
  · rintro (h | ⟨front, segment, habove, hloose, rfl⟩ | rfl)
    · cases h with
      | category hb hpath => exact .category hb hpath
      | brought h hanchored => exact .brought ((hreached _).mpr (.inl h)) hanchored
      | template hu h =>
        exact .template (List.map_append ▸ List.mem_append_left _ hu) ((hreached _).mpr (.inl h))
    · exact .brought ((hreached _).mpr (.inr habove)) fun h => hloose (.inl h)
    · refine .template (t := .node t) ?_ ((hreached _).mpr (.inr (List.prefix_refl _)))
      exact List.mem_map_of_mem (List.mem_append_right _ (List.mem_singleton_self t))

/-- An item that excludes a template is a template that is expected, with the same place. -/
theorem exists_of_excludes (hspots : ∀ x, x ∈ items.map Entry.spot ↔ Expected sorted bs ms ts x)
    {d : Entry} (hd : d ∈ items) (hpath : Path.segments d.path = Path.segments t.path)
    (hkey : d.key = (Entry.template t).key) : ∃ u ∈ ts, u.place = t.place := by
  cases d with
  | category c sorted entries => cases (Prod.mk.inj hkey).2
  | template u =>
    have hexpected := (hspots _).mp (List.mem_map_of_mem hd)
    generalize hx : (Entry.template u).spot = x at hexpected
    cases hexpected with
    | category _ _ => cases (Prod.mk.inj hx).2
    | brought _ _ => cases (Prod.mk.inj hx).2
    | @template v hv _ =>
      obtain rfl : u = v := Entry.template.inj (Prod.mk.inj hx).2
      exact ⟨u, hv, Prod.ext hpath (Prod.mk.inj hkey).1⟩

end Step

namespace Catalog.Meets

variable {settings : Settings} {bs : List Branch} {ms : List NodeTemplate} {ts : List Template}
  {cat : Catalog}

/-! ### Templates of node sets -/

/-- Adding a template of a node set, with another place than those before. -/
theorem addMember (h : cat.Meets settings bs ms (ms.map .node)) (set : NodeSet) {t : NodeTemplate}
    (hnew : ∀ u ∈ ms, (Template.node u).place ≠ (Template.node t).place) :
    (cat.addMember set t).catalog.Meets settings bs (ms ++ [t]) ((ms ++ [t]).map .node) := by
  have hleads := fun ids => @leads_iff settings bs ms _ cat h ids
  obtain ⟨items, hholds, hspots⟩ := h
  have hexcludes : ∀ d ∈ items, Path.segments d.path = Path.segments t.path →
      d.key ≠ t.entry.key := by
    intro d hd hpath hkey
    obtain ⟨_, hmember, hplace⟩ := @exists_of_excludes _ _ _ _ (.node t) _ hspots d hd hpath hkey
    obtain ⟨u, hu, rfl⟩ := List.mem_map.mp hmember
    exact hnew u hu hplace
  obtain ⟨made, hmember, hmade⟩ := hholds.exists_addMember set hexcludes
  refine ⟨_, hmember, fun x => ?_⟩
  rw [List.map_append, List.map_append, List.mem_append, List.mem_append, hspots, hmade,
    List.map_singleton, List.mem_singleton, expected_concat_iff, or_assoc]
  simp only [hleads]

/-- Adding the templates of node sets, all with different places. -/
theorem withMembers (h : cat.Meets settings bs ms (ms.map .node))
    {members : List (NodeSet × NodeTemplate)}
    (hdistinct : (((ms ++ members.map Prod.snd).map Template.node).map Template.place).Nodup) :
    (cat.withMembers members).Meets settings bs (ms ++ members.map Prod.snd)
      ((ms ++ members.map Prod.snd).map .node) := by
  induction members generalizing cat ms with
  | nil => rwa [List.map_nil, List.append_nil]
  | cons m members ih =>
    have hsplit : ms ++ (m :: members).map Prod.snd = ms ++ [m.2] ++ members.map Prod.snd := by
      rw [List.map_cons, List.append_assoc, List.singleton_append]
    rw [hsplit] at hdistinct ⊢
    refine ih (h.addMember m.1 fun u hu heq => ?_) hdistinct
    have hfirst := hdistinct.sublist (((List.sublist_append_left _ _).map _).map _)
    rw [List.map_append, List.map_append, List.nodup_append] at hfirst
    refine hfirst.2.2 _ (List.mem_map_of_mem (List.mem_map_of_mem hu)) _ ?_ heq
    exact List.mem_map_of_mem (List.mem_map_of_mem (List.mem_singleton_self m.2))

/-! ### Nodes and meta nodes -/

/-- A template with another place than those before is placed if its path leads somewhere, and
refused otherwise. -/
theorem insert (h : cat.Meets settings bs ms ts) {t : Template} {ts' : List Template}
    (hts : ts'.Perm (t :: ts)) (hdistinct : (ts'.map Template.place).Nodup) :
    (cat.insert (.template t)).catalog.Meets settings bs ms ts' ∧
      ((Reached bs ms (Path.segments t.path) ∧ (cat.insert (.template t)).answer = .ok true) ∨
        (¬Reached bs ms (Path.segments t.path) ∧
          ∃ fault, (cat.insert (.template t)).answer = .error fault)) := by
  have hleads := @leads_iff settings bs ms ts cat h (Path.segments t.path)
  have hnew : ∀ u ∈ ts, u.place ≠ t.place := by
    intro u hu heq
    refine (List.nodup_cons.mp ((hts.map Template.place).nodup_iff.mp hdistinct)).1 ?_
    exact heq ▸ List.mem_map_of_mem hu
  have hmem : ∀ u, u ∈ ts' ↔ u ∈ ts ∨ u = t := by
    intro u
    rw [hts.mem_iff, List.mem_cons, or_comm]
  obtain ⟨items, hholds, hspots⟩ := h
  rcases hanswer : (cat.insert (.template t)).answer with fault | _ | _
  · -- the path does not lead anywhere, and nothing more is expected
    have hloose : ¬Reached bs ms (Path.segments t.path) := by
      intro hreached
      obtain ⟨a, ha⟩ := hleads.mpr hreached
      exact @insert_ne_error_of_trace cat (.template t) a ha fault hanswer
    refine ⟨⟨items, ?_, fun x => ?_⟩, .inr ⟨hloose, fault, rfl⟩⟩
    · rwa [insert_unchanged_of_error hanswer]
    · rw [hspots, expected_insert_iff hmem, or_iff_left fun h => hloose h.1]
  · obtain ⟨d, hd, hpath, hkey⟩ := hholds.exists_of_insert_eq_false hanswer
    obtain ⟨u, hu, hplace⟩ := exists_of_excludes hspots hd hpath hkey
    exact absurd hplace (hnew u hu)
  · have hreached : Reached bs ms (Path.segments t.path) := by
      obtain ⟨a, -, ha, -⟩ := exists_of_insert_eq_true hanswer
      exact hleads.mp ⟨a, ha⟩
    refine ⟨⟨_, hholds.insert (Entry.fresh_template _ t) hanswer, fun x => ?_⟩,
      .inl ⟨hreached, rfl⟩⟩
    rw [List.map_append, List.mem_append, hspots, expected_insert_iff hmem, List.map_singleton,
      List.mem_singleton, and_iff_right hreached]

/-- What is left out last is one thing more that is settled. -/
theorem perm_append_out {α : Type} (placed : List α) (out : List (α × Skipped.Reason)) (a : α)
    (reason : Skipped.Reason) :
    (placed ++ (out ++ [(a, reason)]).map Prod.fst).Perm (a :: (placed ++ out.map Prod.fst)) := by
  rw [List.map_append, List.map_singleton, ← List.append_assoc]
  exact List.perm_append_singleton _ _

/-- Templates that are settled, all with different places: those are placed whose paths lead
somewhere, and the others are left out. -/
theorem of_settled {α : Type} {entry : α → Entry} {template : α → Template} {start now : Catalog}
    {placed : List α} {out : List (α × Skipped.Reason)}
    (h : start.Meets settings bs ms ts) (hsettled : Settled entry start now placed out)
    (hentry : ∀ a, entry a = .template (template a))
    (hdistinct : ((ts ++ (placed ++ out.map Prod.fst).map template).map Template.place).Nodup) :
    now.Meets settings bs ms (ts ++ (placed ++ out.map Prod.fst).map template) ∧
      (∀ a ∈ placed, Reached bs ms (Path.segments (template a).path)) ∧
      ∀ a ∈ out.map Prod.fst, ¬Reached bs ms (Path.segments (template a).path) := by
  -- one thing more that is settled is one template more
  have hcons : ∀ {a : α} {as as' : List α}, as'.Perm (a :: as) →
      (ts ++ as'.map template).Perm (template a :: (ts ++ as.map template)) :=
    fun hperm => ((hperm.map template).append_left ts).trans List.perm_middle
  have hrest : ∀ {t : Template} {us us' : List Template}, us'.Perm (t :: us) →
      (us'.map Template.place).Nodup → (us.map Template.place).Nodup :=
    fun hperm hnodup => (List.nodup_cons.mp ((hperm.map _).nodup_iff.mp hnodup)).2
  induction hsettled with
  | none =>
    refine ⟨?_, nofun, nofun⟩
    rwa [List.map_nil, List.append_nil, List.map_nil, List.append_nil]
  | @placed cat placed out a _ hanswer ih =>
    have hperm : (placed ++ [a] ++ out.map Prod.fst).Perm (a :: (placed ++ out.map Prod.fst)) := by
      rw [List.append_assoc, List.singleton_append]
      exact List.perm_middle
    obtain ⟨hmeets, hplaced, hout⟩ := ih (hrest (hcons hperm) hdistinct)
    rw [hentry] at hanswer ⊢
    obtain ⟨hnow, ⟨hreached, -⟩ | ⟨-, fault, hfault⟩⟩ := hmeets.insert (hcons hperm) hdistinct
    · refine ⟨hnow, fun b hb => ?_, hout⟩
      rcases List.mem_append.mp hb with hb | hb
      · exact hplaced b hb
      · exact List.mem_singleton.mp hb ▸ hreached
    · cases hanswer.symm.trans hfault
  | @duplicate cat placed out a _ hanswer ih =>
    have hperm := perm_append_out placed out a .duplicate
    obtain ⟨hmeets, -, -⟩ := ih (hrest (hcons hperm) hdistinct)
    rw [hentry] at hanswer
    obtain ⟨-, ⟨-, htrue⟩ | ⟨-, fault, hfault⟩⟩ := hmeets.insert (hcons hperm) hdistinct
    · cases hanswer.symm.trans htrue
    · cases hanswer.symm.trans hfault
  | @refused cat placed out a fault _ hanswer ih =>
    have hperm := perm_append_out placed out a (.refused fault)
    obtain ⟨hmeets, hplaced, hout⟩ := ih (hrest (hcons hperm) hdistinct)
    rw [hentry] at hanswer
    obtain ⟨hnow, ⟨-, htrue⟩ | ⟨hloose, -⟩⟩ := hmeets.insert (hcons hperm) hdistinct
    · cases hanswer.symm.trans htrue
    · rw [insert_unchanged_of_error hanswer] at hnow
      refine ⟨hnow, hplaced, fun b hb => ?_⟩
      rw [List.map_append, List.map_singleton] at hb
      rcases List.mem_append.mp hb with hb | hb
      · exact hout b hb
      · exact List.mem_singleton.mp hb ▸ hloose

end Catalog.Meets

namespace Contributions

variable {c : Contributions}

/-- Categories that bring nothing, all with different addresses: those are placed whose paths are
anchored, and the others are left out. -/
theorem Course.anchored_iff_placed (course : Course c) (hbare : ∀ b ∈ c.categories, b.entries = [])
    (hdistinct : (c.categories.map Branch.address).Nodup) :
    (∀ b ∈ course.categories, Anchored c.categories (Path.segments b.category.path)) ∧
      ∀ b ∈ course.categoriesOut.map Prod.fst,
        ¬Anchored c.categories (Path.segments b.category.path) := by
  constructor
  · intro b hb
    have hanchored := ((course.mem_map_address_iff hbare).mp (List.mem_map_of_mem hb)).1
    exact hanchored.ancestor (List.prefix_append _ _)
  · intro b hb hanchored
    have hmem := course.perm_categories.subset (List.mem_append_right _ hb)
    -- the address is anchored, and so another category has it
    have haddress : b.address ∈ course.categories.map Branch.address :=
      (course.mem_map_address_iff hbare).mpr ⟨.child hmem hanchored, by simp [Branch.address]⟩
    have hnodup := (course.perm_categories.map Branch.address).nodup_iff.mpr hdistinct
    rw [List.map_append, List.nodup_append] at hnodup
    exact hnodup.2.2 _ haddress _ (List.mem_map_of_mem hb) rfl

/-- The categories alone are as expected. -/
theorem meets_categories (hbare : ∀ b ∈ c.categories, b.entries = [])
    (hdistinct : (c.categories.map Branch.address).Nodup) :
    (assemble c.categoriesOnly).catalog.Meets c.settings c.categories [] [] := by
  obtain ⟨course⟩ := @nonempty_course c.categoriesOnly rfl
  obtain ⟨hmiddle, -⟩ := course.of_categoriesOnly
  obtain ⟨hplaced, hout⟩ := course.anchored_iff_placed hbare hdistinct
  refine ⟨_, hmiddle ▸ course.holds_middle hbare, fun x => ?_⟩
  rw [List.mem_map]
  constructor
  · rintro ⟨e, he, rfl⟩
    obtain ⟨b, hb, rfl⟩ := List.mem_map.mp he
    rw [course.entry_eq hbare hb]
    exact .category (course.mem_categories hb) (hplaced b hb)
  · intro h
    cases h with
    | @category b hb hpath =>
      have hb' : b ∈ course.categories := by
        rcases List.mem_append.mp (course.perm_categories.mem_iff.mpr hb) with hb | hb
        · exact hb
        · exact absurd hpath (hout b hb)
      refine ⟨_, List.mem_map_of_mem hb', ?_⟩
      rw [course.entry_eq hbare hb']
      rfl
    | brought h hanchored =>
      exact absurd (h.resolve_right nofun) hanchored
    | template ht _ => cases ht

end Contributions

end NodeCatalog
