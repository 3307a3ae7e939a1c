import NodeCatalog.Proofs.Catalog.Relocation
import NodeCatalog.Proofs.Container.Display
import NodeCatalog.Proofs.Container.Tally

/-!
# Growing trees

A tree grows when entries are appended to its containers: every container keeps its address, and
what it held stays at the front of what it holds (`Grows`).  Where a path leads, it then leads for
good (`Grows.trace`).  A template that is appended changes no path at all
(`trace_modifyAt_append_template`).

What is seen of a container here is its row, the entries without what they hold themselves.  After
an entry is appended at one address, each old address has the row that it had, but for this one, and
the only new addresses are those of what the entry brings (`exists_row_of_modifyAt_append`,
`at?_of_modifyAt_append`).  If it holds nothing, it is the only entry that is new
(`entryAt?_of_modifyAt_append`).
-/

namespace NodeCatalog

@[simp] theorem Entry.key_bare (e : Entry) : e.bare.key = e.key := by
  cases e <;> rfl

@[simp] theorem Entry.id_bare (e : Entry) : e.bare.id = e.id := by
  cases e <;> rfl

@[simp] theorem Entry.path_bare (e : Entry) : e.bare.path = e.path := by
  cases e <;> rfl

/-- A change that keeps the sorting of what a category holds cannot be seen without it. -/
theorem Entry.bare_mapContainer {f : Container → Container} (hf : ∀ k, (f k).sorted = k.sorted)
    (e : Entry) : (e.mapContainer f).bare = e.bare := by
  cases e with
  | category c sorted entries => rw [mapContainer, bare, bare, hf]
  | template t => rfl

namespace Container

/-- The entries held, each without what it holds itself. -/
def row (k : Container) : List Entry :=
  k.entries.map Entry.bare

theorem keys_eq_map_row (k : Container) : k.keys = k.row.map Entry.key := by
  rw [keys, row, List.map_map]
  exact List.map_congr_left fun e _ => e.key_bare.symm

/-! ### Appending -/

section Append

variable {k x y z inner : Container} {t b : List Nat} {e : Entry}

theorem row_append (e : Entry) (k : Container) : (k.append e).row = k.row ++ [e.bare] := by
  rw [row, append, List.map_append, List.map_singleton, row]

theorem row_modifyInner {f : Container → Container} (hf : ∀ k, (f k).sorted = k.sorted) (i : Nat)
    (k : Container) : (k.modifyInner i f).row = k.row := by
  apply List.ext_getElem?
  intro j
  rw [row, row, modifyInner, List.getElem?_map, List.getElem?_map, List.getElem?_modify]
  rcases k.entries[j]? with _ | e
  · rfl
  · by_cases hij : i = j <;> simp [hij, Entry.bare_mapContainer hf]

@[simp] theorem sorted_append (e : Entry) (k : Container) : (k.append e).sorted = k.sorted :=
  rfl

/-- A container sorts as before if the change inside keeps the sorting. -/
theorem sorted_modifyAt {f : Container → Container} (hf : ∀ k, (f k).sorted = k.sorted)
    (a : List Nat) (k : Container) : (k.modifyAt f a).sorted = k.sorted := by
  cases a with
  | nil => exact hf k
  | cons i a => rfl

theorem inner?_append_of_lt {i : Nat} (h : i < k.entries.length) (e : Entry) :
    (k.append e).inner? i = k.inner? i := by
  rw [inner?, inner?, append, List.getElem?_append_left h]

theorem inner?_append_length (e : Entry) (k : Container) :
    (k.append e).inner? k.entries.length = e.container? := by
  rw [inner?, append, List.getElem?_concat_length, Option.bind_some]

/-- Categories stand at positions that are in use. -/
theorem lt_of_inner? {i : Nat} (h : k.inner? i = some x) : i < k.entries.length := by
  obtain ⟨y, hy, -⟩ := Option.bind_eq_some_iff.mp h
  exact (List.getElem?_eq_some_iff.mp hy).1

/-- In what holds nothing nothing is held further down. -/
theorem entries_eq_nil_of_at? {a : List Nat} (hnil : k.entries = [])
    (hx : k.at? a = some x) : x.entries = [] := by
  cases a with
  | nil => exact Option.some.inj hx ▸ hnil
  | cons i a =>
    rw [at?, inner?, hnil] at hx
    cases hx

/-- Appending an entry keeps all addresses, and all rows but one. -/
theorem exists_row_of_modifyAt_append (t : List Nat) (e : Entry) (h : k.at? b = some z) :
    ∃ y, (k.modifyAt (append e) t).at? b = some y ∧
      y.row = if b = t then z.row ++ [e.bare] else z.row := by
  induction b generalizing k t with
  | nil =>
    obtain rfl := Option.some.inj h
    refine ⟨_, rfl, ?_⟩
    cases t with
    | nil => rw [if_pos rfl]; exact row_append e k
    | cons i t => rw [if_neg nofun]; exact row_modifyInner (sorted_modifyAt (sorted_append e) t) i k
  | cons i b ih =>
    obtain ⟨c, next, -, hnext, hb⟩ := exists_of_at?_cons h
    cases t with
    | nil =>
      refine ⟨z, ?_, by rw [if_neg nofun]⟩
      rw [modifyAt, at?, inner?_append_of_lt (lt_of_inner? hnext), hnext]
      exact hb
    | cons j t =>
      by_cases hij : j = i
      · subst hij
        obtain ⟨y, hy, hrow⟩ := ih t hb
        refine ⟨y, ?_, ?_⟩
        · rw [modifyAt, at?, inner?_modifyInner_self, hnext]
          exact hy
        · simp only [hrow, List.cons.injEq, true_and]
      · refine ⟨z, ?_, ?_⟩
        · rw [modifyAt, at?, inner?_modifyInner_of_ne hij, hnext]
          exact hb
        · rw [if_neg fun heq => hij (List.cons.inj heq).1.symm]

/-- Appending an entry makes no addresses but those of what the entry holds. -/
theorem at?_of_modifyAt_append (ht : k.at? t = some x)
    (h : (k.modifyAt (append e) t).at? b = some y) :
    (∃ z, k.at? b = some z) ∨ ∃ r inner, b = t ++ x.entries.length :: r ∧
      e.container? = some inner ∧ inner.at? r = some y := by
  induction b generalizing k t with
  | nil => exact .inl ⟨k, rfl⟩
  | cons i b ih =>
    cases t with
    | nil =>
      obtain rfl := Option.some.inj ht
      obtain ⟨c, next, -, hnext, hb⟩ := exists_of_at?_cons h
      by_cases hi : i < k.entries.length
      · refine .inl ⟨y, ?_⟩
        rw [modifyAt, inner?_append_of_lt hi] at hnext
        rw [at?, hnext]
        exact hb
      · have hlength : (k.append e).entries.length = k.entries.length + 1 := List.length_append
        have hlt := lt_of_inner? hnext
        rw [modifyAt, hlength] at hlt
        obtain rfl : i = k.entries.length := by omega
        rw [modifyAt, inner?_append_length] at hnext
        exact .inr ⟨b, next, rfl, hnext, hb⟩
    | cons j t =>
      obtain ⟨c, next, -, hnext, ht⟩ := exists_of_at?_cons ht
      by_cases hij : j = i
      · subst hij
        rw [modifyAt, at?, inner?_modifyInner_self, hnext] at h
        rcases ih ht h with ⟨z, hz⟩ | ⟨r, inner, rfl, hinner, hr⟩
        · exact .inl ⟨z, by rw [at?, hnext]; exact hz⟩
        · exact .inr ⟨r, inner, rfl, hinner, hr⟩
      · rw [modifyAt, at?, inner?_modifyInner_of_ne hij] at h
        exact .inl ⟨y, h⟩

/-- Appending an entry that holds nothing makes one address of an entry, behind what is held. -/
theorem entryAt?_of_modifyAt_append {y : Entry} (ht : k.at? t = some x)
    (hnil : ∀ inner, e.container? = some inner → inner.entries = [])
    (h : (k.modifyAt (append e) t).entryAt? b = some y) :
    (∃ z, k.entryAt? b = some z) ∨ b = t ++ [x.entries.length] ∧ y = e := by
  obtain ⟨a, i, new, rfl, hnew, hi⟩ := exists_of_entryAt? h
  rcases at?_of_modifyAt_append ht hnew with ⟨z, hz⟩ | ⟨r, inner, -, hinner, hr⟩
  · rw [entryAt?_concat, hz, Option.bind_some]
    by_cases hat : a = t
    · subst hat
      obtain rfl := Option.some.inj (hz.symm.trans ht)
      rw [at?_modifyAt, hz, Option.map_some] at hnew
      obtain rfl := Option.some.inj hnew
      rw [append, List.getElem?_append] at hi
      split at hi
      · exact .inl ⟨y, hi⟩
      · rw [List.getElem?_singleton] at hi
        split at hi
        · obtain rfl := Option.some.inj hi
          obtain rfl : i = z.entries.length := by omega
          exact .inr ⟨rfl, rfl⟩
        · cases hi
    · -- the container has the row that it had
      obtain ⟨new', hnew', hrow⟩ := exists_row_of_modifyAt_append t e hz
      obtain rfl := Option.some.inj (hnew.symm.trans hnew')
      rw [if_neg hat] at hrow
      have hbare := congrArg (fun l => l[i]?) hrow
      rw [row, row, List.getElem?_map, List.getElem?_map, hi] at hbare
      obtain ⟨w, hw, -⟩ := Option.map_eq_some_iff.mp hbare.symm
      exact .inl ⟨w, hw⟩
  · -- nothing stands in what the entry holds
    rw [entries_eq_nil_of_at? (hnil inner hinner) hr] at hi
    cases hi

/-- An entry that is appended adds its own tally. -/
theorem tally_modifyAt_append {α : Type} {see : Entry → α} (hx : k.at? t = some x) (e : Entry)
    (hsee : ∀ b y, see (Entry.mapContainer (modifyAt (append e) b) y) = see y) :
    (k.modifyAt (append e) t).tally see = k.tally see + Entry.tally see [e] := by
  obtain ⟨rest, hrest, hmodify⟩ := exists_tally_modifyAt see hx
  rw [hmodify _ hsee, hrest, tally, append, Entry.tally_append, ← tally, add_right_comm]

end Append

/-! ### Growth -/

/-- Every container of a tree is still there, and what it held stands before what it holds more. -/
def Grows (k k' : Container) : Prop :=
  ∀ a x, k.at? a = some x → ∃ x', k'.at? a = some x' ∧ x.row <+: x'.row

namespace Grows

variable {k k' k'' : Container}

theorem refl (k : Container) : k.Grows k :=
  fun _ x h => ⟨x, h, List.prefix_refl _⟩

theorem trans (h : k.Grows k') (h' : k'.Grows k'') : k.Grows k'' := by
  intro a x hx
  obtain ⟨x', hx', hrow⟩ := h a x hx
  obtain ⟨x'', hx'', hrow'⟩ := h' a x' hx'
  exact ⟨x'', hx'', hrow.trans hrow'⟩

theorem modifyAt_append (k : Container) (e : Entry) (t : List Nat) :
    k.Grows (k.modifyAt (append e) t) := by
  intro a x hx
  obtain ⟨y, hy, hrow⟩ := exists_row_of_modifyAt_append t e hx
  refine ⟨y, hy, ?_⟩
  rw [hrow]
  split
  · exact List.prefix_append _ _
  · exact List.prefix_refl _

/-- Of the entry at an address, only what it holds may change. -/
theorem bare_eq (h : k.Grows k') {a : List Nat} {e e' : Entry} (he : k.entryAt? a = some e)
    (he' : k'.entryAt? a = some e') : e'.bare = e.bare := by
  obtain ⟨b, i, x, rfl, hx, hi⟩ := exists_of_entryAt? he
  obtain ⟨x', hx', more, hrow⟩ := h b x hx
  rw [entryAt?_concat, hx', Option.bind_some] at he'
  have hold : x.row[i]? = some e.bare := by rw [row, List.getElem?_map, hi, Option.map_some]
  have hnew : x'.row[i]? = some e'.bare := by rw [row, List.getElem?_map, he', Option.map_some]
  rw [← hrow, List.getElem?_append_left (List.getElem?_eq_some_iff.mp hold).1, hold] at hnew
  exact (Option.some.inj hnew).symm

/-- What a category holds grows with the tree. -/
theorem inner? (h : k.Grows k') {i : Nat} {x : Container} (hx : k.inner? i = some x) :
    ∃ x', k'.inner? i = some x' ∧ x.Grows x' := by
  have hat : ∀ a, k.at? (i :: a) = x.at? a := fun a => by rw [at?, hx, Option.bind_some]
  obtain ⟨x', hx', -⟩ := h [i] x (hat [])
  obtain ⟨-, next, -, hnext, -⟩ := exists_of_at?_cons hx'
  refine ⟨next, hnext, ?_⟩
  intro a y hy
  obtain ⟨y', hy', hrow⟩ := h (i :: a) y ((hat a).trans hy)
  rw [at?, hnext, Option.bind_some] at hy'
  exact ⟨y', hy', hrow⟩

theorem position? (h : k.Grows k') {id : String} {i : Nat} (hi : k.position? id = some i) :
    k'.position? id = some i := by
  obtain ⟨x', hx', hrow⟩ := h [] k rfl
  obtain rfl := Option.some.inj hx'
  obtain ⟨more, hkeys⟩ := hrow.map Entry.key
  rw [← keys_eq_map_row, ← keys_eq_map_row] at hkeys
  have hlt := (List.getElem?_eq_some_iff.mp (position?_eq_some_iff.mp hi).1).1
  rw [position?_eq_some_iff] at hi ⊢
  rw [← hkeys, List.getElem?_append_left hlt]
  refine ⟨hi.1, ?_⟩
  intro j hj
  rw [List.getElem?_append_left (hj.trans hlt)]
  exact hi.2 j hj

/-- Where a path leads, it leads when the tree has grown. -/
theorem trace (h : k.Grows k') {ids : List String} {a : List Nat} (ha : k.trace ids = some a) :
    k'.trace ids = some a := by
  induction ids generalizing k k' a with
  | nil => exact ha
  | cons id ids ih =>
    obtain ⟨i, inner, b, hi, hinner, hb, rfl⟩ := trace_cons_eq_some_iff.mp ha
    obtain ⟨inner', hinner', hgrows⟩ := h.inner? hinner
    exact trace_cons_eq_some_iff.mpr ⟨i, inner', b, h.position? hi, hinner', ih hgrows hb, rfl⟩

/-- A path that leads to an old address when the tree has grown led there before. -/
theorem trace_of_at? (h : k.Grows k') {ids : List String} {a : List Nat} {x : Container}
    (ha : k'.trace ids = some a) (hx : k.at? a = some x) : k.trace ids = some a := by
  induction ids generalizing k k' a with
  | nil => exact ha
  | cons id ids ih =>
    obtain ⟨i, inner', b, hi, hinner', hb, rfl⟩ := trace_cons_eq_some_iff.mp ha
    obtain ⟨-, inner, -, hinner, hat⟩ := exists_of_at?_cons hx
    obtain ⟨next, hnext, hgrows⟩ := h.inner? hinner
    obtain rfl := Option.some.inj (hnext.symm.trans hinner')
    -- the position is in use, and so is the first with its key among the old ones
    obtain ⟨_, hself, hrow⟩ := h [] k rfl
    obtain rfl := Option.some.inj hself
    obtain ⟨more, hkeys⟩ := hrow.map Entry.key
    rw [← keys_eq_map_row, ← keys_eq_map_row] at hkeys
    have hlt : i < k.keys.length := by
      rw [keys, List.length_map]
      exact lt_of_inner? hinner
    obtain ⟨hkey, hfirst⟩ := position?_eq_some_iff.mp hi
    rw [← hkeys, List.getElem?_append_left hlt] at hkey
    refine trace_cons_eq_some_iff.mpr ⟨i, inner, b, ?_, hinner, ih hgrows hb hat, rfl⟩
    refine position?_eq_some_iff.mpr ⟨hkey, fun j hj => ?_⟩
    have hne := hfirst j hj
    rwa [← hkeys, List.getElem?_append_left (hj.trans hlt)] at hne

/-- A container that is reached is reached when the tree has grown, and holds what it held. -/
theorem reach (h : k.Grows k') {path : String} {ids : List String} {x : Container}
    (hx : k.reach path ids = .ok x) : ∃ x', k'.reach path ids = .ok x' ∧ x.row <+: x'.row := by
  obtain ⟨a, ha, hat⟩ := reach_eq_ok_iff.mp hx
  obtain ⟨x', hat', hrow⟩ := h a x hat
  exact ⟨x', reach_of_trace (h.trace ha) hat' path, hrow⟩

end Grows

/-! ### Paths and templates -/

/-- A change that keeps the place of each category and what it holds keeps all paths. -/
theorem trace_modifyAt {f : Container → Container}
    (hposition : ∀ k id, (f k).position? id = k.position? id)
    (hinner : ∀ k i, (f k).inner? i = k.inner? i) (t : List Nat) (ids : List String)
    (k : Container) : (k.modifyAt f t).trace ids = k.trace ids := by
  induction ids generalizing t k with
  | nil => rfl
  | cons id ids ih =>
    cases t with
    | nil => rw [modifyAt, trace, trace, hposition]; simp only [hinner]
    | cons j t =>
      rw [modifyAt, trace, trace, position?_modifyInner]
      congr 1
      funext i
      by_cases hij : j = i
      · subst hij
        rw [inner?_modifyInner_self]
        rcases k.inner? j with _ | inner
        · rfl
        · exact congrArg (Option.map (j :: ·)) (ih t inner)
      · rw [inner?_modifyInner_of_ne hij]

theorem trace_modifyAt_append_template (s : Template) (t : List Nat) (ids : List String)
    (k : Container) : (k.modifyAt (append (.template s)) t).trace ids = k.trace ids := by
  refine trace_modifyAt (fun k id => ?_) (fun k i => ?_) t ids k
  · have hleaf : ((Entry.template s).key == (id, After.Kind.category)) = false :=
      beq_eq_false_iff_ne.mpr fun heq => nomatch (Prod.mk.inj heq).2
    rw [position?, position?, keys, keys, append, List.map_append, List.map_singleton, List.idxOf?,
      List.findIdx?_append, List.findIdx?_cons, hleaf]
    exact Option.or_none
  · rcases Nat.lt_trichotomy i k.entries.length with hi | rfl | hi
    · exact inner?_append_of_lt hi _
    · rw [inner?_append_length, inner?, List.getElem?_eq_none (le_refl _)]
      rfl
    · have hlength : (k.append (.template s)).entries.length = k.entries.length + 1 :=
        List.length_append
      rw [inner?, inner?, List.getElem?_eq_none (by omega), List.getElem?_eq_none (by omega)]

/-! ### Where a path breaks off -/

/-- A path is followed part by part. -/
theorem reach_append {path : String} {front : List String} {k x : Container}
    (h : k.reach path front = .ok x) (back : List String) :
    k.reach path (front ++ back) = x.reach path back := by
  induction front generalizing k with
  | nil =>
    obtain rfl := Except.ok.inj h
    rfl
  | cons id front ih =>
    rw [reach] at h
    rw [List.cons_append, reach]
    rcases hc : k.category? id with _ | ⟨c, inner⟩
    · rw [hc] at h
      cases h
    · rw [hc] at h
      exact ih h

theorem category?_eq_none_iff {k : Container} {id : String} :
    k.category? id = none ↔ (id, .category) ∉ k.keys := by
  rw [← List.idxOf?_eq_none_iff, ← position?]
  constructor
  · intro h
    rcases hi : k.position? id with _ | i
    · rfl
    · obtain ⟨c, inner, hc, -⟩ := category?_of_position? hi
      cases h.symm.trans hc
  · exact category?_of_position?_eq_none

/-- A segment that names no category, but is the id of an entry, is the id of a template. -/
theorem exists_template_of_contains {k : Container} {id : String} (hc : k.category? id = none)
    (h : k.contains id = true) : ∃ t, .template t ∈ k.entries ∧ t.id = id := by
  obtain ⟨e, he, hid⟩ := List.any_eq_true.mp h
  rw [beq_iff_eq] at hid
  cases e with
  | category c sorted entries =>
    refine absurd (List.mem_map.mpr ⟨_, he, ?_⟩) (category?_eq_none_iff.mp hc)
    rw [← hid]
    rfl
  | template t => exact ⟨t, he, hid⟩

/-- A path that does not lead anywhere breaks off at the first segment that names no category. -/
theorem exists_of_reach_error {path : String} {ids : List String} {k : Container} {fault : Fault}
    (h : k.reach path ids = .error fault) :
    ∃ front segment back x, ids = front ++ segment :: back ∧ k.reach path front = .ok x ∧
      x.category? segment = none ∧ fault = x.segmentFault segment path := by
  induction ids generalizing k with
  | nil => cases h
  | cons id ids ih =>
    rw [reach] at h
    rcases hc : k.category? id with _ | ⟨c, inner⟩
    · rw [hc] at h
      exact ⟨[], id, ids, k, rfl, rfl, hc, (Except.error.inj h).symm⟩
    · rw [hc] at h
      obtain ⟨front, segment, back, x, rfl, hx, hsegment, hfault⟩ := ih h
      refine ⟨id :: front, segment, back, x, rfl, ?_, hsegment, hfault⟩
      rw [reach, hc]
      exact hx

/-! ### Where a path goes on -/

/-- A path is traced part by part. -/
theorem trace_append {k x : Container} {ids : List String} {a : List Nat}
    (h : k.trace ids = some a) (ha : k.at? a = some x) (more : List String) :
    k.trace (ids ++ more) = (x.trace more).map (a ++ ·) := by
  induction ids generalizing k a with
  | nil =>
    obtain rfl := Option.some.inj h
    obtain rfl := Option.some.inj ha
    exact Option.map_id'.symm
  | cons id ids ih =>
    obtain ⟨i, next, b, hi, hnext, hb, rfl⟩ := trace_cons_eq_some_iff.mp h
    rw [at?, hnext, Option.bind_some] at ha
    rw [List.cons_append, trace, hi, Option.bind_some, hnext, Option.bind_some, ih hb ha,
      Option.map_map]
    rfl

/-- A category with an id stands at some position where the keys tell of it. -/
theorem exists_position?_of_mem_keys {k : Container} {id : String} (h : (id, .category) ∈ k.keys) :
    ∃ i inner, k.position? id = some i ∧ k.inner? i = some inner := by
  rcases hi : k.position? id with _ | i
  · exact absurd h (category?_eq_none_iff.mp (category?_of_position?_eq_none hi))
  · obtain ⟨-, inner, -, hinner, -⟩ := category?_of_position? hi
    exact ⟨i, inner, rfl, hinner⟩

/-- A path goes on through each category that is held at its end. -/
theorem exists_trace_concat {k x : Container} {ids : List String} {a : List Nat} {id : String}
    (h : k.trace ids = some a) (ha : k.at? a = some x) (hid : (id, .category) ∈ x.keys) :
    ∃ i, k.trace (ids ++ [id]) = some (a ++ [i]) := by
  obtain ⟨i, inner, hi, hinner⟩ := exists_position?_of_mem_keys hid
  refine ⟨i, ?_⟩
  rw [trace_append h ha, trace_cons_eq_some_iff.mpr ⟨i, inner, [], hi, hinner, rfl, rfl⟩,
    Option.map_some]

end Container

end NodeCatalog
