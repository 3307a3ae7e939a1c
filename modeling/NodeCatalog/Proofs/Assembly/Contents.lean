import NodeCatalog.Proofs.Assembly.Settled

/-!
# What an assembled tree holds

Where only categories without contents and templates are inserted, the tree can be told from the list
of what was placed: each container holds, in the order in which they were placed, the entries whose
path leads to it, and nothing else (`Catalog.Holds`).  One insertion keeps this (`Holds.insert`), and
so do things that are settled one after the other (`Settled.holds`).
-/

namespace NodeCatalog

open Container

/-- An entry as it is placed: a category holds nothing yet. -/
structure Entry.Fresh (sorted : Bool) (e : Entry) : Prop where
  bare_eq : e.bare = e
  fits : e.Fits sorted (Path.segments e.path)

theorem Entry.fresh_category (sorted : Bool) (c : Category) : (category c sorted []).Fresh sorted :=
  ⟨rfl, category_fits sorted c⟩

theorem Entry.fresh_template (sorted : Bool) (t : Template) : (template t).Fresh sorted :=
  ⟨rfl, template_fits sorted t⟩

/-- What a fresh category holds. -/
theorem Entry.Fresh.entries_eq_nil {sorted : Bool} {e : Entry} {inner : Container}
    (h : e.Fresh sorted) (hinner : e.container? = some inner) : inner.entries = [] := by
  obtain ⟨c, rfl⟩ := Entry.container?_eq_some_iff.mp hinner
  exact (Entry.category.inj h.bare_eq).2.2.symm

namespace Catalog

/-- A tidy tree holds just the given items: each container has as its row the items whose path leads
to it, in their order. -/
structure Holds (settings : Settings) (items : List Entry) (cat : Catalog) : Prop where
  tidyFor : cat.TidyFor settings
  rows : ∀ a k, cat.root.at? a = some k →
    k.row = items.filter fun e => Path.segments e.path = cat.root.idsAt a
  present : ∀ e ∈ items, ∃ a, cat.root.trace (Path.segments e.path) = some a
  /-- No two items exclude each other. -/
  distinct : (items.map fun e => (Path.segments e.path, e.key)).Nodup

theorem holds_empty (settings : Settings) : (empty settings).Holds settings [] := by
  refine ⟨tidyFor_empty settings, ?_, fun _ he => absurd he List.not_mem_nil, List.nodup_nil⟩
  intro a k hk
  cases a with
  | nil =>
    obtain rfl := Option.some.inj hk
    rfl
  | cons i a => cases hk

namespace Holds

variable {settings : Settings} {items : List Entry} {cat : Catalog} {e : Entry} {a : List Nat}
  {k : Container}

/-- The ids along an address lead to it. -/
theorem trace_idsAt (h : cat.Holds settings items) (hk : cat.root.at? a = some k) :
    cat.root.trace (cat.root.idsAt a) = some a :=
  h.tidyFor.tidy.trace_idsAt hk

/-- The row of the container that a path leads to. -/
theorem mem_row_iff (h : cat.Holds settings items) (ha : cat.root.trace (Path.segments e.path) =
    some a) (hk : cat.root.at? a = some k) : e ∈ k.row ↔ e ∈ items := by
  rw [h.rows a k hk, List.mem_filter, idsAt_of_trace ha, decide_eq_true rfl, eq_self_iff_true,
    and_true]

/-- An item is excluded from being placed once more. -/
theorem not_mem_of_not_hasClash (h : cat.Holds settings items)
    (ha : cat.root.trace (Path.segments e.path) = some a) (hk : cat.root.at? a = some k)
    (hclash : k.hasClash e = false) :
    (Path.segments e.path, e.key) ∉ items.map fun d => (Path.segments d.path, d.key) := by
  intro hmem
  obtain ⟨d, hd, heq⟩ := List.mem_map.mp hmem
  obtain ⟨hpath, hkey⟩ := Prod.mk.inj heq
  have hrow : d ∈ k.row := (h.mem_row_iff (hpath ▸ ha) hk).mpr hd
  rw [hasClash_eq_false_iff, keys_eq_map_row, ← hkey] at hclash
  exact hclash (List.mem_map_of_mem hrow)

/-- An entry that is appended where its path leads is one more item of that container, and the other
containers hold what they held. -/
theorem row_of_old (h : cat.Holds settings items) (he : e.bare = e)
    (ha : cat.root.trace (Path.segments e.path) = some a) {b : List Nat} {x y : Container}
    (hx : cat.root.at? b = some x) (hy : (cat.root.modifyAt (append e) a).at? b = some y) :
    y.row = (items ++ [e]).filter fun d =>
      Path.segments d.path = (cat.root.modifyAt (append e) a).idsAt b := by
  obtain ⟨y', hy', hrow⟩ := exists_row_of_modifyAt_append a e hx
  obtain rfl := Option.some.inj (hy.symm.trans hy')
  have htrace := h.trace_idsAt hx
  have hids : (cat.root.modifyAt (append e) a).idsAt b = cat.root.idsAt b :=
    idsAt_of_trace ((Grows.modifyAt_append _ e a).trace htrace)
  rw [hids, hrow, h.rows b x hx, List.filter_append, he]
  by_cases hba : b = a
  · subst hba
    rw [if_pos rfl, List.filter_singleton, idsAt_of_trace ha, decide_eq_true rfl]
    rfl
  · have hpath : Path.segments e.path ≠ cat.root.idsAt b := by
      intro heq
      rw [← heq, ha] at htrace
      exact hba (Option.some.inj htrace).symm
    rw [if_neg hba, List.filter_singleton, decide_eq_false hpath, Bool.cond_false, List.append_nil]

/-- No path that led somewhere leads to the contents of what is appended. -/
theorem segments_ne_of_new (h : cat.Holds settings items) (hk : cat.root.at? a = some k)
    (ha : cat.root.trace (Path.segments e.path) = some a) {ids : List String} {r : List Nat}
    (hids : (cat.root.modifyAt (append e) a).trace ids = some (a ++ k.entries.length :: r)) :
    ∀ d ∈ items ++ [e], Path.segments d.path ≠ ids := by
  rintro d hd rfl
  have hpresent : ∃ b, cat.root.trace (Path.segments d.path) = some b := by
    rcases List.mem_append.mp hd with hd | hd
    · exact h.present d hd
    · exact ⟨a, List.mem_singleton.mp hd ▸ ha⟩
  obtain ⟨b, hb⟩ := hpresent
  rw [(Grows.modifyAt_append _ e a).trace hb, Option.some.injEq] at hids
  -- the position at the end of the container was not in use
  obtain ⟨z, hz⟩ := exists_at?_of_trace hb
  rw [hids, at?_append, hk, Option.bind_some] at hz
  obtain ⟨-, next, -, hnext, -⟩ := exists_of_at?_cons hz
  exact absurd (lt_of_inner? hnext) (lt_irrefl _)

/-- Placing a fresh entry adds it to the items. -/
theorem insert (h : cat.Holds settings items) (he : e.Fresh settings.sortChildren)
    (hanswer : (cat.insert e).answer = .ok true) :
    (cat.insert e).catalog.Holds settings (items ++ [e]) := by
  have htidy := h.tidyFor.insert he.fits
  obtain ⟨a, k, ha, hk, hclash, hcatalog⟩ := exists_of_insert_eq_true hanswer
  rw [hcatalog] at htidy ⊢
  have hgrows : cat.root.Grows (cat.root.modifyAt (append e) a) := .modifyAt_append _ e a
  refine
    { tidyFor := htidy
      rows := ?rows
      present := ?present
      distinct := ?distinct }
  case rows =>
    intro b y hy
    rcases at?_of_modifyAt_append hk hy with ⟨x, hx⟩ | ⟨r, inner, rfl, hinner, hr⟩
    · exact h.row_of_old he.bare_eq ha hx hy
    · -- the new container holds nothing, and no path led there
      have hids := htidy.tidy.trace_idsAt hy
      have hnil := he.entries_eq_nil hinner
      obtain rfl : r = [] := by
        rcases r with _ | ⟨i, r⟩
        · rfl
        · rw [at?, inner?, hnil] at hr
          cases hr
      obtain rfl := Option.some.inj hr
      rw [row, hnil, List.map_nil, eq_comm, List.filter_eq_nil_iff]
      exact fun d hd hpath => h.segments_ne_of_new hk ha hids d hd (of_decide_eq_true hpath)
  case present =>
    intro d hd
    rcases List.mem_append.mp hd with hd | hd
    · obtain ⟨b, hb⟩ := h.present d hd
      exact ⟨b, hgrows.trace hb⟩
    · exact ⟨a, List.mem_singleton.mp hd ▸ hgrows.trace ha⟩
  case distinct =>
    rw [List.map_append, List.map_singleton, List.nodup_append]
    refine ⟨h.distinct, List.pairwise_singleton _ _, ?_⟩
    intro p hp q hq heq
    rw [List.mem_singleton] at hq
    rw [heq, hq] at hp
    exact h.not_mem_of_not_hasClash ha hk hclash hp

end Holds

/-- While fresh entries are settled the tree holds what was placed. -/
theorem Settled.holds {α : Type} {entry : α → Entry} {settings : Settings} {start now : Catalog}
    {items : List Entry} {placed : List α} {out : List (α × Skipped.Reason)}
    (h : Settled entry start now placed out) (hstart : start.Holds settings items)
    (hfresh : ∀ a ∈ placed, (entry a).Fresh settings.sortChildren) :
    now.Holds settings (items ++ placed.map entry) := by
  induction h with
  | none => rwa [List.map_nil, List.append_nil]
  | @placed _ _ _ a _ hanswer ih =>
    rw [List.map_append, List.map_singleton, ← List.append_assoc]
    exact (ih fun b hb => hfresh b (List.mem_append_left _ hb)).insert
      (hfresh a (List.mem_append_right _ (List.mem_singleton_self a))) hanswer
  | duplicate _ _ ih => exact ih hfresh
  | refused _ _ ih => exact ih hfresh

end Catalog

end NodeCatalog
