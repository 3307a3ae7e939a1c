import NodeCatalog.Proofs.Container.Tally
import NodeCatalog.Proofs.Container.Tidy

/-!
# Where entries stand

In a tidy tree the segments of the path of an entry are the ids of the categories around it; with
its own id they make its location (`Entry.location`).  Each id in a location is that of an entry,
which is declared below the ids before it (`Tidy.exists_of_mem_location`).  So an id that just one
entry has stands in a location at most once (`Tidy.count_location_le_one`).

The entries that are declared below given ids are those of the container that the ids lead to
(`Tidy.filter_listed`).
-/

namespace NodeCatalog

open Container

namespace Entry

/-- Where an entry stands: the segments of its path, and its id behind them. -/
def location (e : Entry) : List String :=
  Path.segments e.path ++ [e.id]

/-- An id that occurs once belongs to one entry. -/
theorem eq_of_count_id_eq_one {es : List Entry} {id : String} (h : (es.map Entry.id).count id = 1)
    {e x : Entry} (he : e ∈ es) (hx : x ∈ es) (heid : e.id = id) (hxid : x.id = id) : e = x := by
  rw [List.count_eq_countP, List.countP_map, List.countP_eq_length_filter,
    List.length_eq_one_iff] at h
  obtain ⟨only, h⟩ := h
  have honly : ∀ y ∈ es, y.id = id → y = only := by
    intro y hy hid
    refine List.mem_singleton.mp (h ▸ List.mem_filter.mpr ⟨hy, ?_⟩)
    exact beq_iff_eq.mpr hid
  rw [honly e he heid, honly x hx hxid]

end Entry

namespace Container

/-! ### Addresses of entries that are listed -/

theorem entryAt?_ne_nil {a : List Nat} {k : Container} {e : Entry} (h : k.entryAt? a = some e) :
    a ≠ [] := by
  rintro rfl
  cases h

/-- What is listed stands at an address. -/
theorem exists_entryAt?_of_mem_listed {es : List Entry} {z : Entry} (h : z ∈ Entry.listed es)
    (s : Bool) : ∃ a, entryAt? a ⟨s, es⟩ = some z := by
  -- addresses in the rest of a list are shifted by its first entry
  have later : ∀ s x rest, (∃ a, entryAt? a ⟨s, rest⟩ = some z) →
      ∃ a, entryAt? a ⟨s, x :: rest⟩ = some z := by
    rintro s x rest ⟨a, ha⟩
    obtain ⟨i, a, rfl⟩ := List.exists_cons_of_ne_nil (entryAt?_ne_nil ha)
    exact ⟨(i + 1) :: a, by rw [entryAt?_cons_succ, ha]⟩
  induction es using Entry.forest_induction generalizing s with
  | nil => exact absurd h List.not_mem_nil
  | category c sorted entries rest ihe ihr =>
    rw [Entry.listed_category] at h
    rcases List.mem_cons.mp h with rfl | h
    · exact ⟨[0], rfl⟩
    rcases List.mem_append.mp h with h | h
    · obtain ⟨a, ha⟩ := ihe h sorted
      refine ⟨0 :: a, ?_⟩
      rw [entryAt?_cons (entryAt?_ne_nil ha)]
      exact ha
    · exact later s _ rest (ihr h s)
  | template t rest ihr =>
    rw [Entry.listed_template] at h
    rcases List.mem_cons.mp h with rfl | h
    · exact ⟨[0], rfl⟩
    · exact later s _ rest (ihr h s)

namespace Tidy

variable {sorted : Bool} {ids : List String} {k : Container}

/-! ### Paths -/

/-- The path of an entry leads to what holds it. -/
theorem exists_trace_of_mem_listed (h : Tidy sorted [] k) {z : Entry}
    (hz : z ∈ Entry.listed k.entries) :
    ∃ a inner, k.trace (Path.segments z.path) = some a ∧ k.at? a = some inner ∧
      z ∈ inner.entries := by
  obtain ⟨a, ha⟩ := exists_entryAt?_of_mem_listed hz k.sorted
  obtain ⟨b, i, inner, rfl, hb, hi⟩ := exists_of_entryAt? ha
  have hmem := List.mem_of_getElem? hi
  refine ⟨b, inner, ?_, hb, hmem⟩
  rw [((h.at? hb).fits hmem).placed, List.nil_append]
  exact h.trace_idsAt hb

/-- Each id on the way that a path leads is that of an entry, declared below the ids before it. -/
theorem exists_of_trace (h : Tidy sorted ids k) {front back : List String} {s : String}
    {a : List Nat} (ha : k.trace (front ++ s :: back) = some a) :
    ∃ b w, k.entryAt? b = some w ∧ w.id = s ∧ Path.segments w.path = ids ++ front := by
  induction front generalizing k ids a with
  | nil =>
    obtain ⟨i, inner, -, hi, -⟩ := trace_cons_eq_some_iff.mp ha
    obtain ⟨c, inner, hc, hid, -⟩ := inner?_of_keys (position?_eq_some_iff.mp hi).1
    refine ⟨[i], _, hc, hid, ?_⟩
    rw [List.append_nil]
    exact (h.fits (List.mem_of_getElem? hc)).placed
  | cons f front ih =>
    obtain ⟨i, inner, b, hi, hinner, hb, -⟩ := trace_cons_eq_some_iff.mp ha
    obtain ⟨c, next, hc, hid, hnext⟩ := inner?_of_keys (position?_eq_some_iff.mp hi).1
    obtain rfl := Option.some.inj (hinner.symm.trans hnext)
    have htidy := (h.fits (List.mem_of_getElem? hc)).inner inner rfl
    obtain ⟨b', w, hw, hws, hpath⟩ := ih htidy hb
    refine ⟨i :: b', w, ?_, hws, ?_⟩
    · rw [entryAt?_cons (entryAt?_ne_nil hw), hinner]
      exact hw
    · rw [hpath, List.append_assoc, List.singleton_append]
      exact congrArg (fun x => ids ++ x :: front) hid

/-! ### Locations -/

/-- Each id in a location is that of an entry, declared below the ids before it. -/
theorem exists_of_mem_location (h : Tidy sorted [] k) {z : Entry}
    (hz : z ∈ Entry.listed k.entries) {front back : List String} {s : String}
    (hsplit : z.location = front ++ s :: back) :
    ∃ w ∈ Entry.listed k.entries, w.id = s ∧ Path.segments w.path = front := by
  rcases List.eq_nil_or_concat back with rfl | ⟨back, last, rfl⟩
  · obtain ⟨hpath, hid⟩ := List.append_inj' hsplit rfl
    exact ⟨z, hz, (List.cons.inj hid).1, hpath⟩
  · rw [List.concat_eq_append, ← List.cons_append, ← List.append_assoc] at hsplit
    obtain ⟨hpath, -⟩ := List.append_inj' hsplit rfl
    obtain ⟨a, -, ha, -⟩ := h.exists_trace_of_mem_listed hz
    rw [hpath] at ha
    obtain ⟨b, w, hw, hid, hfront⟩ := h.exists_of_trace ha
    exact ⟨w, mem_listed_of_entryAt? hw, hid, hfront⟩

theorem mem_ids_of_mem_location (h : Tidy sorted [] k) {z : Entry}
    (hz : z ∈ Entry.listed k.entries) {s : String} (hs : s ∈ z.location) :
    s ∈ (Entry.listed k.entries).map Entry.id := by
  obtain ⟨front, back, hsplit⟩ := List.append_of_mem hs
  obtain ⟨w, hw, rfl, -⟩ := h.exists_of_mem_location hz hsplit
  exact List.mem_map_of_mem hw

/-- An id that one entry has stands in a location at most once. -/
theorem count_location_le_one (h : Tidy sorted [] k) {id : String}
    (hid : ((Entry.listed k.entries).map Entry.id).count id = 1) {z : Entry}
    (hz : z ∈ Entry.listed k.entries) : z.location.count id ≤ 1 := by
  by_cases hmem : id ∈ z.location
  · obtain ⟨front, back, hsplit, hfront⟩ := List.eq_append_cons_of_mem hmem
    have hback : id ∉ back := by
      intro hback
      obtain ⟨middle, rest, rfl⟩ := List.append_of_mem hback
      -- both occurrences are of the one entry, which would have two paths
      obtain ⟨w, hw, hwid, hwpath⟩ := h.exists_of_mem_location hz hsplit
      rw [← List.cons_append, ← List.append_assoc] at hsplit
      obtain ⟨x, hx, hxid, hxpath⟩ := h.exists_of_mem_location hz hsplit
      rw [Entry.eq_of_count_id_eq_one hid hw hx hwid hxid, hxpath] at hwpath
      have hlength := congrArg List.length hwpath
      simp at hlength
    rw [hsplit, List.count_append, List.count_cons_self, List.count_eq_zero.mpr hfront,
      List.count_eq_zero.mpr hback]
  · rw [List.count_eq_zero.mpr hmem]
    exact Nat.zero_le 1

/-- An entry that alone has its id does not stand below this id. -/
theorem id_not_mem_path (h : Tidy sorted [] k) {e : Entry}
    (hid : ((Entry.listed k.entries).map Entry.id).count e.id = 1)
    (he : e ∈ Entry.listed k.entries) : e.id ∉ Path.segments e.path := by
  have hcount := h.count_location_le_one hid he
  rw [Entry.location, List.count_append, List.count_singleton_self] at hcount
  exact List.count_eq_zero.mp (by omega)

end Tidy

end Container

/-! ### What is declared below given ids -/

namespace Entry

variable {sorted : Bool} {ids : List String} {es : List Entry}

/-- What is listed is one of the entries, or is declared below one of the categories. -/
theorem path_of_mem_listed (hfits : ∀ e ∈ es, e.Fits sorted ids) {z : Entry} (hz : z ∈ listed es) :
    Path.segments z.path = ids ∨
      ∃ e ∈ es, e.kind = .category ∧ ids ++ [e.id] <+: Path.segments z.path := by
  induction es using forest_induction generalizing ids with
  | nil => exact absurd hz List.not_mem_nil
  | category c sorted' entries rest ihe ihr =>
    obtain ⟨hc, hrest⟩ := List.forall_mem_cons.mp hfits
    rw [listed_category] at hz
    rcases List.mem_cons.mp hz with rfl | hz
    · exact .inl hc.placed
    rcases List.mem_append.mp hz with hz | hz
    · refine .inr ⟨_, List.mem_cons_self, rfl, ?_⟩
      have hentries : ∀ e ∈ entries, e.Fits sorted (ids ++ [c.id]) := fun e he =>
        (hc.inner ⟨sorted', entries⟩ rfl).fits he
      rcases ihe hentries hz with hpath | ⟨e, -, -, hpath⟩
      · exact hpath ▸ List.prefix_refl _
      · exact (List.prefix_append _ _).trans hpath
    · refine (ihr hrest hz).imp_right ?_
      rintro ⟨e, he, hpath⟩
      exact ⟨e, List.mem_cons_of_mem _ he, hpath⟩
  | template t rest ihr =>
    obtain ⟨ht, hrest⟩ := List.forall_mem_cons.mp hfits
    rw [listed_template] at hz
    rcases List.mem_cons.mp hz with rfl | hz
    · exact .inl ht.placed
    · refine (ihr hrest hz).imp_right ?_
      rintro ⟨e, he, hpath⟩
      exact ⟨e, List.mem_cons_of_mem _ he, hpath⟩

theorem prefix_path_of_mem_listed (hfits : ∀ e ∈ es, e.Fits sorted ids) {z : Entry}
    (hz : z ∈ listed es) : ids <+: Path.segments z.path := by
  rcases path_of_mem_listed hfits hz with hpath | ⟨e, -, -, hpath⟩
  · exact hpath ▸ List.prefix_refl _
  · exact (List.prefix_append _ _).trans hpath

/-- Nothing is declared below a category that is not there. -/
theorem filter_listed_of_absent (hfits : ∀ e ∈ es, e.Fits sorted ids) (id : String)
    (hid : (id, .category) ∉ es.map key) (more : List String) :
    (listed es).filter (fun z => Path.segments z.path = ids ++ id :: more) = [] := by
  rw [List.filter_eq_nil_iff]
  intro z hz htrue
  have hz_path := of_decide_eq_true htrue
  rcases path_of_mem_listed hfits hz with hpath | ⟨e, he, hkind, hpath⟩
  · rw [hz_path] at hpath
    have hlength := congrArg List.length hpath
    simp at hlength
  · rw [hz_path, List.prefix_append_right_inj, List.cons_prefix_cons] at hpath
    exact hid (List.mem_map.mpr ⟨e, he, Prod.ext hpath.1 hkind⟩)

/-- What is declared where entries stand are these entries. -/
theorem filter_listed_self (hfits : ∀ e ∈ es, e.Fits sorted ids) :
    (listed es).filter (fun z => Path.segments z.path = ids) = es := by
  induction es using forest_induction with
  | nil => rfl
  | category c sorted' entries rest _ ihr =>
    obtain ⟨hc, hrest⟩ := List.forall_mem_cons.mp hfits
    have hentries : ∀ e ∈ entries, e.Fits sorted (ids ++ [c.id]) := fun e he =>
      (hc.inner ⟨sorted', entries⟩ rfl).fits he
    -- what the category holds is declared further down
    have hnone : (listed entries).filter (fun z => Path.segments z.path = ids) = [] := by
      rw [List.filter_eq_nil_iff]
      intro z hz htrue
      have hpath := prefix_path_of_mem_listed hentries hz
      rw [of_decide_eq_true htrue] at hpath
      have hlength := hpath.length_le
      rw [List.length_append, List.length_singleton] at hlength
      omega
    rw [listed_category, List.filter_cons, if_pos (decide_eq_true hc.placed),
      List.filter_append, hnone, List.nil_append, ihr hrest]
  | template t rest ihr =>
    obtain ⟨ht, hrest⟩ := List.forall_mem_cons.mp hfits
    rw [listed_template, List.filter_cons, if_pos (decide_eq_true ht.placed), ihr hrest]

/-- What is declared below a category is among what this category holds. -/
theorem filter_listed_inside {front back entries : List Entry} {c : Category} {s : Bool}
    (hfits : ∀ e ∈ front ++ category c s entries :: back, e.Fits sorted ids)
    (hkeys : ((front ++ category c s entries :: back).map key).Nodup) (more : List String) :
    (listed (front ++ category c s entries :: back)).filter
        (fun z => Path.segments z.path = ids ++ c.id :: more) =
      (listed entries).filter fun z => Path.segments z.path = ids ++ c.id :: more := by
  -- no sibling has the key of the category
  rw [List.map_append, List.map_cons, List.nodup_middle, List.nodup_cons, List.mem_append,
    not_or] at hkeys
  obtain ⟨⟨hfront, hback⟩, -⟩ := hkeys
  obtain ⟨hfits_front, hfits⟩ := List.forall_mem_append.mp hfits
  obtain ⟨hc, hfits_back⟩ := List.forall_mem_cons.mp hfits
  have hnone_front := filter_listed_of_absent hfits_front c.id hfront more
  have hnone_back := filter_listed_of_absent hfits_back c.id hback more
  have hown : ¬ Path.segments (category c s entries).path = ids ++ c.id :: more := by
    rw [hc.placed]
    intro heq
    have hlength := congrArg List.length heq
    rw [List.length_append, List.length_cons] at hlength
    omega
  rw [listed_append, listed_category, List.filter_append, List.filter_cons,
    if_neg (by simpa using hown), List.filter_append,
    hnone_front, hnone_back, List.nil_append, List.append_nil]

end Entry

/-- What is declared where an address leads is what the container there holds. -/
theorem Container.Tidy.filter_listed {sorted : Bool} {ids : List String} {k inner : Container}
    {a : List Nat} (h : Tidy sorted ids k) (ha : k.at? a = some inner) :
    (Entry.listed k.entries).filter (fun z => Path.segments z.path = ids ++ k.idsAt a) =
      inner.entries := by
  induction a generalizing k ids with
  | nil =>
    obtain rfl := Option.some.inj ha
    rw [idsAt, List.append_nil]
    exact Entry.filter_listed_self fun e he => h.fits he
  | cons i a ih =>
    obtain ⟨c, next, hc, -, ha⟩ := exists_of_at?_cons ha
    have hnext := ih ((h.fits (List.mem_of_getElem? hc)).inner next rfl) ha
    rw [List.append_assoc] at hnext
    obtain ⟨front, back, hsplit⟩ := List.append_of_mem (List.mem_of_getElem? hc)
    have hfits : ∀ e ∈ k.entries, e.Fits sorted ids := fun e he => h.fits he
    have hkeys := h.distinct
    rw [keys, hsplit] at hkeys
    rw [hsplit] at hfits
    rw [idsAt_cons hc, hsplit, Entry.filter_listed_inside hfits hkeys]
    exact hnext

end NodeCatalog
