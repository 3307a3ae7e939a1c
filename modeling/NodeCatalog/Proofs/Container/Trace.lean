import Mathlib.Data.List.InsertIdx
import NodeCatalog.Container.Reach
import NodeCatalog.Proofs.Container.Address

/-!
# Where a path leads

A path names categories by id, and of two with one id it means the first.  `trace` gives the address
of the container that a list of ids leads to.  Reaching and editing by ids are looking up and
changing at this address: `reach_eq_ok_iff` and `edit_of_trace`.  An id leads where the first of the
keys says that it is a category with that id, so that a tree may be changed below its keys without
changing where paths lead.

`trace_eraseAt` follows a path after an entry is taken out: if the entry does not hold the end of
the path, the path leads to the same container still.  `hasClash_of_eraseAt` says what this container
takes then.
-/

namespace NodeCatalog

/-- What no two siblings should share: the id and the kind. -/
def Entry.key (e : Entry) : String × After.Kind :=
  (e.id, e.kind)

@[simp] theorem Entry.key_mapContainer (f : Container → Container) (e : Entry) :
    (e.mapContainer f).key = e.key := by
  rw [key, id_mapContainer, kind_mapContainer, key]

/-- Entries exclude each other exactly if they have one key. -/
theorem Entry.clashes_iff {a b : Entry} : a.clashes b = true ↔ a.key = b.key := by
  rw [clashes, Bool.and_eq_true, beq_iff_eq, beq_iff_eq, key, key, Prod.mk.injEq]

theorem Entry.exists_of_key_eq {e : Entry} {id : String} (h : e.key = (id, .category)) :
    ∃ c sorted entries, e = category c sorted entries ∧ c.id = id := by
  cases e with
  | category c sorted entries => exact ⟨c, sorted, entries, rfl, (Prod.mk.inj h).1⟩
  | template t => cases (Prod.mk.inj h).2

namespace Container

/-- The keys of the entries held. -/
def keys (k : Container) : List (String × After.Kind) :=
  k.entries.map Entry.key

theorem hasClash_eq_false_iff {k : Container} {e : Entry} :
    k.hasClash e = false ↔ e.key ∉ k.keys := by
  rw [hasClash, List.any_eq_false, keys, List.mem_map]
  constructor
  · rintro h ⟨x, hx, hkey⟩
    exact h x hx (Entry.clashes_iff.mpr hkey)
  · intro h x hx hclash
    exact h ⟨x, hx, Entry.clashes_iff.mp hclash⟩

/-- No entry that is held excludes one that may be added. -/
theorem not_clashes_of_mem {k : Container} {e x : Entry} (h : k.hasClash e = false)
    (hx : x ∈ k.entries) : ¬ x.clashes e = true :=
  List.any_eq_false.mp h x hx

@[simp] theorem hasClash_relocate (k : Container) (path : String) (e : Entry) :
    k.hasClash (e.relocate path) = k.hasClash e := by
  simp only [hasClash, Entry.clashes, Entry.id_relocate, Entry.kind_relocate]

@[simp] theorem keys_modifyInner (i : Nat) (f : Container → Container) (k : Container) :
    (k.modifyInner i f).keys = k.keys := by
  apply List.ext_getElem?
  intro j
  rw [keys, keys, modifyInner, List.getElem?_map, List.getElem?_map, List.getElem?_modify]
  rcases k.entries[j]? with _ | e
  · rfl
  · by_cases hij : i = j <;> simp [hij]

theorem keys_eraseAt_singleton (i : Nat) (k : Container) :
    (k.eraseAt [i]).keys = k.keys.eraseIdx i := by
  rw [keys, keys, eraseAt, List.eraseIdx_map]

theorem getElem?_keys_eq_some_iff {k : Container} {i : Nat} {key : String × After.Kind} :
    k.keys[i]? = some key ↔ ∃ x, k.entries[i]? = some x ∧ x.key = key := by
  rw [keys, List.getElem?_map, Option.map_eq_some_iff]

/-- The keys that are left once an entry in the container, or below it, is taken out. -/
theorem mem_keys_eraseAt {a : List Nat} (ha : a ≠ []) {k : Container}
    {key : String × After.Kind} :
    key ∈ (k.eraseAt a).keys ↔
      ∃ j x, k.entries[j]? = some x ∧ x.key = key ∧ [j] ≠ a := by
  obtain ⟨i, b, rfl⟩ := List.exists_cons_of_ne_nil ha
  by_cases hb : b = []
  · subst hb
    rw [keys_eraseAt_singleton, List.mem_eraseIdx_iff_getElem?]
    constructor
    · rintro ⟨j, hij, hj⟩
      obtain ⟨x, hx, hkey⟩ := getElem?_keys_eq_some_iff.mp hj
      exact ⟨j, x, hx, hkey, fun h => hij (List.cons.inj h).1⟩
    · rintro ⟨j, x, hx, hkey, hij⟩
      exact ⟨j, fun h => hij (by rw [h]), getElem?_keys_eq_some_iff.mpr ⟨x, hx, hkey⟩⟩
  · rw [eraseAt_cons hb, keys_modifyInner, List.mem_iff_getElem?]
    constructor
    · rintro ⟨j, hj⟩
      obtain ⟨x, hx, hkey⟩ := getElem?_keys_eq_some_iff.mp hj
      exact ⟨j, x, hx, hkey, fun h => hb (List.cons.inj h).2.symm⟩
    · rintro ⟨j, x, hx, hkey, -⟩
      exact ⟨j, getElem?_keys_eq_some_iff.mpr ⟨x, hx, hkey⟩⟩

/-! ### The position of a category -/

/-- The position of the first category with an id. -/
def position? (k : Container) (id : String) : Option Nat :=
  k.keys.idxOf? (id, .category)

theorem position?_eq_some_iff {k : Container} {id : String} {i : Nat} :
    k.position? id = some i ↔
      k.keys[i]? = some (id, .category) ∧ ∀ j < i, k.keys[j]? ≠ some (id, .category) := by
  rw [position?, List.idxOf?_eq_some_iff]
  constructor
  · rintro ⟨hi, hkey, hfirst⟩
    refine ⟨List.getElem?_eq_some_iff.mpr ⟨hi, hkey⟩, ?_⟩
    intro j hj h
    obtain ⟨_, h⟩ := List.getElem?_eq_some_iff.mp h
    exact hfirst j hj h
  · rintro ⟨hkey, hfirst⟩
    obtain ⟨hi, hkey⟩ := List.getElem?_eq_some_iff.mp hkey
    refine ⟨hi, hkey, fun j hj h => hfirst j hj ?_⟩
    exact List.getElem?_eq_some_iff.mpr ⟨by omega, h⟩

/-- A category is held where a key says so. -/
theorem inner?_of_keys {k : Container} {i : Nat} {id : String}
    (h : k.keys[i]? = some (id, .category)) :
    ∃ c inner, k.entries[i]? = some (.category c inner.sorted inner.entries) ∧ c.id = id ∧
      k.inner? i = some inner := by
  obtain ⟨e, he, hkey⟩ := getElem?_keys_eq_some_iff.mp h
  obtain ⟨c, sorted, entries, rfl, hid⟩ := Entry.exists_of_key_eq hkey
  refine ⟨c, ⟨sorted, entries⟩, he, hid, ?_⟩
  rw [inner?, he]
  rfl

theorem categoryIn_cons_of_key_ne {e : Entry} {id : String} (h : e.key ≠ (id, .category))
    (es : List Entry) : categoryIn id (e :: es) = categoryIn id es := by
  cases e with
  | category c sorted entries =>
    have hid : c.id ≠ id := by
      rintro rfl
      exact h rfl
    rw [categoryIn, if_neg hid]
  | template t => rfl

theorem modifyIn_cons_of_key_ne {e : Entry} {id : String} (h : e.key ≠ (id, .category))
    (f : Category → Container → Category × Container) (es : List Entry) :
    modifyIn id f (e :: es) = e :: modifyIn id f es := by
  cases e with
  | category c sorted entries =>
    have hid : c.id ≠ id := by
      rintro rfl
      exact h rfl
    rw [modifyIn, if_neg hid]
  | template t => rfl

/-- The first category with an id stands at its position, and setting its contents changes the
container there. -/
theorem category?_of_position? {k : Container} {id : String} {i : Nat}
    (h : k.position? id = some i) :
    ∃ c inner, k.category? id = some (c, inner) ∧ k.inner? i = some inner ∧
      ∀ contents, k.setContents id contents = k.modifyInner i fun _ => contents := by
  obtain ⟨sorted, entries⟩ := k
  simp only [category?, setContents, modifyInner, inner?, mk.injEq, true_and]
  induction entries generalizing i with
  | nil => cases h
  | cons e es ih =>
    rw [position?, keys, List.map_cons, List.idxOf?_cons] at h
    split at h
    · rename_i hkey
      rw [beq_iff_eq] at hkey
      obtain rfl := Option.some.inj h
      obtain ⟨c, sorted', inner, rfl, hid⟩ := Entry.exists_of_key_eq hkey
      refine ⟨c, ⟨sorted', inner⟩, ?_, rfl, ?_⟩
      · rw [categoryIn, if_pos hid]
      · intro contents
        rw [modifyIn, if_pos hid]
        rfl
    · rename_i hkey
      rw [beq_iff_eq] at hkey
      obtain ⟨j, hj, rfl⟩ := Option.map_eq_some_iff.mp h
      obtain ⟨c, inner, hc, hinner, hset⟩ := ih hj
      refine ⟨c, inner, ?_, hinner, ?_⟩
      · rw [categoryIn_cons_of_key_ne hkey, hc]
      · intro contents
        rw [List.modify_succ_cons, ← hset, modifyIn_cons_of_key_ne hkey]

theorem category?_of_position?_eq_none {k : Container} {id : String}
    (h : k.position? id = none) : k.category? id = none := by
  obtain ⟨sorted, entries⟩ := k
  rw [position?, List.idxOf?_eq_none_iff, keys] at h
  rw [category?]
  induction entries with
  | nil => rfl
  | cons e es ih =>
    rw [List.map_cons, List.mem_cons, not_or] at h
    rw [categoryIn_cons_of_key_ne (Ne.symm h.1)]
    exact ih h.2

@[simp] theorem position?_modifyInner (i : Nat) (f : Container → Container) (k : Container)
    (id : String) : (k.modifyInner i f).position? id = k.position? id := by
  rw [position?, keys_modifyInner, position?]

/-- The first category with an id stays the first when another entry is taken out. -/
theorem position?_eraseIdx {k : Container} {id : String} {i j : Nat}
    (h : k.position? id = some j) (hij : i ≠ j) :
    (k.eraseAt [i]).position? id = some (if i < j then j - 1 else j) := by
  rw [position?_eq_some_iff] at h ⊢
  rw [keys_eraseAt_singleton, getElem?_eraseIdx_shift hij]
  refine ⟨h.1, ?_⟩
  intro l hl
  rw [List.getElem?_eraseIdx]
  split <;> split at hl <;> exact h.2 _ (by omega)

/-! ### Tracing a path -/

/-- The address that ids lead to. -/
def trace : List String → Container → Option (List Nat)
  | [], _ => some []
  | id :: ids, k =>
    (k.position? id).bind fun i => (k.inner? i).bind fun inner => (trace ids inner).map (i :: ·)

theorem trace_cons_eq_some_iff {id : String} {ids : List String} {k : Container} {a : List Nat} :
    k.trace (id :: ids) = some a ↔
      ∃ i inner b, k.position? id = some i ∧ k.inner? i = some inner ∧
        inner.trace ids = some b ∧ a = i :: b := by
  rw [trace]
  constructor
  · intro h
    obtain ⟨i, hi, h⟩ := Option.bind_eq_some_iff.mp h
    obtain ⟨inner, hinner, h⟩ := Option.bind_eq_some_iff.mp h
    obtain ⟨b, hb, rfl⟩ := Option.map_eq_some_iff.mp h
    exact ⟨i, inner, b, hi, hinner, hb, rfl⟩
  · rintro ⟨i, inner, b, hi, hinner, hb, rfl⟩
    rw [hi, Option.bind_some, hinner, Option.bind_some, hb, Option.map_some]

/-- An address that ids lead to is followed by as many ids as it is long. -/
theorem trace_take {a b : List Nat} {ids : List String} {k : Container}
    (h : k.trace ids = some (a ++ b)) : k.trace (ids.take a.length) = some a := by
  induction a generalizing ids k with
  | nil => rfl
  | cons i a ih =>
    cases ids with
    | nil => cases h
    | cons id ids =>
      obtain ⟨j, inner, c, hj, hinner, hc, heq⟩ := trace_cons_eq_some_iff.mp h
      obtain ⟨rfl, rfl⟩ := List.cons.inj heq
      exact trace_cons_eq_some_iff.mpr ⟨i, inner, a, hj, hinner, ih hc, rfl⟩

/-- More ids lead further down. -/
theorem prefix_of_trace_append {a t : List Nat} {ids more : List String} {k : Container}
    (h : k.trace ids = some a) (ht : k.trace (ids ++ more) = some t) : a <+: t := by
  induction ids generalizing k a t with
  | nil =>
    obtain rfl := Option.some.inj h
    exact List.nil_prefix
  | cons id ids ih =>
    obtain ⟨i, inner, a, hi, hinner, ha, rfl⟩ := trace_cons_eq_some_iff.mp h
    obtain ⟨j, other, b, hj, hother, hb, rfl⟩ := trace_cons_eq_some_iff.mp ht
    obtain rfl := Option.some.inj (hi.symm.trans hj)
    obtain rfl := Option.some.inj (hinner.symm.trans hother)
    exact List.cons_prefix_cons.mpr ⟨rfl, ih ha hb⟩

/-- Where a path leads somewhere, so does each part of it from the start. -/
theorem exists_trace_above {k : Container} {ids ids' : List String} {b : List Nat}
    (habove : ids <+: ids') (hb : k.trace ids' = some b) : ∃ a, k.trace ids = some a := by
  induction ids generalizing k ids' b with
  | nil => exact ⟨[], rfl⟩
  | cons id ids ih =>
    obtain ⟨rest, rfl⟩ := habove
    obtain ⟨i, inner, b, hi, hinner, hrest, rfl⟩ := trace_cons_eq_some_iff.mp hb
    obtain ⟨a, ha⟩ := ih (List.prefix_append ids rest) hrest
    exact ⟨i :: a, trace_cons_eq_some_iff.mpr ⟨i, inner, a, hi, hinner, ha, rfl⟩⟩

/-- The last number of an address is the position of the last id. -/
theorem trace_concat {a : List Nat} {i : Nat} {ids : List String} {k : Container}
    (h : k.trace ids = some (a ++ [i])) :
    ∃ ids' id inner, ids = ids' ++ [id] ∧ k.trace ids' = some a ∧ k.at? a = some inner ∧
      inner.position? id = some i := by
  induction a generalizing ids k with
  | nil =>
    cases ids with
    | nil => cases h
    | cons id ids =>
      obtain ⟨j, inner, b, hj, hinner, hb, heq⟩ := trace_cons_eq_some_iff.mp h
      obtain ⟨rfl, rfl⟩ := List.cons.inj heq
      cases ids with
      | nil => exact ⟨[], id, k, rfl, rfl, rfl, hj⟩
      | cons id' ids =>
        obtain ⟨_, _, _, _, _, _, hnil⟩ := trace_cons_eq_some_iff.mp hb
        cases hnil
  | cons j a ih =>
    cases ids with
    | nil => cases h
    | cons id ids =>
      obtain ⟨j', inner, b, hj, hinner, hb, heq⟩ := trace_cons_eq_some_iff.mp h
      obtain ⟨rfl, rfl⟩ := List.cons.inj heq
      obtain ⟨ids', id', last, rfl, ha, hlast, hi⟩ := ih hb
      refine ⟨id :: ids', id', last, rfl, ?_, ?_, hi⟩
      · exact trace_cons_eq_some_iff.mpr ⟨j, inner, a, hj, hinner, ha, rfl⟩
      · rw [at?, hinner]
        exact hlast

theorem exists_at?_of_trace {ids : List String} {k : Container} {a : List Nat}
    (h : k.trace ids = some a) : ∃ inner, k.at? a = some inner := by
  induction ids generalizing k a with
  | nil =>
    obtain rfl := Option.some.inj h
    exact ⟨k, rfl⟩
  | cons id ids ih =>
    obtain ⟨i, inner, b, -, hinner, hb, rfl⟩ := trace_cons_eq_some_iff.mp h
    rw [at?, hinner]
    exact ih hb

/-- The ids of the categories along an address. -/
def idsAt : List Nat → Container → List String
  | [], _ => []
  | i :: a, k =>
    match k.entries[i]? with
    | some (.category c sorted entries) => c.id :: idsAt a ⟨sorted, entries⟩
    | _ => []

theorem idsAt_cons {k next : Container} {i : Nat} {c : Category}
    (h : k.entries[i]? = some (.category c next.sorted next.entries)) (a : List Nat) :
    k.idsAt (i :: a) = c.id :: next.idsAt a := by
  rw [idsAt, h]

theorem idsAt_append {a : List Nat} {k inner : Container} (h : k.at? a = some inner)
    (b : List Nat) : k.idsAt (a ++ b) = k.idsAt a ++ inner.idsAt b := by
  induction a generalizing k with
  | nil =>
    obtain rfl := Option.some.inj h
    rfl
  | cons i a ih =>
    obtain ⟨c, next, he, -, ha⟩ := exists_of_at?_cons h
    rw [List.cons_append, idsAt_cons he, idsAt_cons he, ih ha, List.cons_append]

/-- Ids that lead to an address are those along it. -/
theorem idsAt_of_trace {ids : List String} {k : Container} {a : List Nat}
    (h : k.trace ids = some a) : k.idsAt a = ids := by
  induction ids generalizing k a with
  | nil =>
    obtain rfl := Option.some.inj h
    rfl
  | cons id ids ih =>
    obtain ⟨i, inner, b, hi, hinner, hb, rfl⟩ := trace_cons_eq_some_iff.mp h
    obtain ⟨c, other, he, hid, hother⟩ := inner?_of_keys (position?_eq_some_iff.mp hi).1
    obtain rfl := Option.some.inj (hinner.symm.trans hother)
    rw [idsAt_cons he, hid, ih hb]

/-- The ids that lead through a category have its id among them. -/
theorem id_mem_of_trace {k : Container} {ids : List String} {p t : List Nat} {e : Entry}
    (ht : k.trace ids = some t) (he : k.entryAt? p = some e) (hp : p <+: t) : e.id ∈ ids := by
  obtain ⟨a, i, holder, rfl, ha, hi⟩ := exists_of_entryAt? he
  obtain ⟨r, rfl⟩ := hp
  rw [List.append_assoc, List.singleton_append] at ht
  obtain ⟨inner, hinner⟩ := exists_at?_of_trace ht
  rw [at?_append, ha, Option.bind_some] at hinner
  obtain ⟨c, next, hc, -, -⟩ := exists_of_at?_cons hinner
  obtain rfl := Option.some.inj (hi.symm.trans hc)
  rw [← idsAt_of_trace ht, idsAt_append ha, idsAt_cons hc]
  exact List.mem_append_right _ List.mem_cons_self

/-! ### Reaching and editing -/

/-- A path reaches the container at the address that it leads to. -/
theorem reach_of_trace {ids : List String} {k inner : Container} {a : List Nat}
    (h : k.trace ids = some a) (ha : k.at? a = some inner) (path : String) :
    reach path ids k = .ok inner := by
  induction ids generalizing k a with
  | nil =>
    obtain rfl := Option.some.inj h
    obtain rfl := Option.some.inj ha
    rfl
  | cons id ids ih =>
    obtain ⟨i, next, b, hi, hnext, hb, rfl⟩ := trace_cons_eq_some_iff.mp h
    obtain ⟨c, other, hc, hother, -⟩ := category?_of_position? hi
    obtain rfl := Option.some.inj (hnext.symm.trans hother)
    rw [at?, hnext, Option.bind_some] at ha
    rw [reach, hc]
    exact ih hb ha

theorem reach_eq_ok_iff {path : String} {ids : List String} {k inner : Container} :
    reach path ids k = .ok inner ↔ ∃ a, k.trace ids = some a ∧ k.at? a = some inner := by
  constructor
  · intro h
    induction ids generalizing k with
    | nil =>
      rw [reach, Except.ok.injEq] at h
      exact ⟨[], rfl, congrArg some h⟩
    | cons id ids ih =>
      rw [reach] at h
      rcases hi : k.position? id with _ | i
      · rw [category?_of_position?_eq_none hi] at h
        cases h
      · obtain ⟨c, next, hc, hnext, -⟩ := category?_of_position? hi
        rw [hc] at h
        obtain ⟨a, hb, ha⟩ := ih h
        refine ⟨i :: a, trace_cons_eq_some_iff.mpr ⟨i, next, a, hi, hnext, hb, rfl⟩, ?_⟩
        rw [at?, hnext]
        exact ha
  · rintro ⟨a, h, ha⟩
    exact reach_of_trace h ha path

/-- Editing by a path changes the container at the address that it leads to. -/
theorem edit_of_trace {β : Type} {ids : List String} {k inner : Container} {a : List Nat}
    (h : k.trace ids = some a) (ha : k.at? a = some inner) (path : String)
    (f : Container → β × Container) :
    edit path f ids k = .ok ((f inner).1, k.modifyAt (fun x => (f x).2) a) := by
  induction ids generalizing k a with
  | nil =>
    obtain rfl := Option.some.inj h
    obtain rfl := Option.some.inj ha
    rfl
  | cons id ids ih =>
    obtain ⟨i, next, b, hi, hnext, hb, rfl⟩ := trace_cons_eq_some_iff.mp h
    obtain ⟨c, other, hc, hother, hset⟩ := category?_of_position? hi
    obtain rfl := Option.some.inj (hnext.symm.trans hother)
    rw [at?, hnext, Option.bind_some] at ha
    rw [edit, hc]
    simp only [ih hb ha, hset]
    -- what is set as the contents is what the change makes of the contents that are there
    have hat : k.at? [i] = some next := by rw [at?, hnext]; rfl
    exact congrArg (fun x => Except.ok ((f inner).1, x))
      (modifyAt_congr (f := fun _ => next.modifyAt (fun x => (f x).2) b) hat rfl)

/-! ### After an erasure -/

/-- A path whose end the entry that is taken out does not hold leads to the same container. -/
theorem trace_eraseAt {ids : List String} {k : Container} {p t : List Nat}
    (h : k.trace ids = some t) (hp : ¬ p <+: t) :
    (k.eraseAt p).trace ids = some (shift p t) := by
  induction ids generalizing k p t with
  | nil =>
    obtain rfl := Option.some.inj h
    rw [shift_nil]
    rfl
  | cons id ids ih =>
    obtain ⟨j, inner, t, hj, hinner, ht, rfl⟩ := trace_cons_eq_some_iff.mp h
    rcases p with _ | ⟨i, p⟩
    · exact absurd List.nil_prefix hp
    rw [trace_cons_eq_some_iff]
    by_cases hne : p = []
    · -- the entry is a sibling of the category that the path goes through
      subst hne
      have hij : i ≠ j := fun h => hp (h ▸ List.cons_prefix_cons.mpr ⟨rfl, List.nil_prefix⟩)
      refine ⟨_, inner, t, position?_eraseIdx hj hij, ?_, ht, rfl⟩
      rw [inner?, eraseAt, getElem?_eraseIdx_shift hij]
      exact hinner
    · -- the entry lies in a category, which keeps its key and position
      rw [eraseAt_cons hne]
      by_cases hij : i = j
      · subst hij
        rw [List.cons_prefix_cons, not_and] at hp
        refine ⟨i, inner.eraseAt p, shift p t, ?_, ?_, ih ht (hp rfl), shift_cons_self hne i t⟩
        · rw [position?_modifyInner, hj]
        · rw [inner?_modifyInner_self, hinner, Option.map_some]
      · refine ⟨j, inner, t, ?_, ?_, ht, shift_cons_of_ne hne hij t⟩
        · rw [position?_modifyInner, hj]
        · rw [inner?_modifyInner_of_ne hij, hinner]

/-- What excludes an entry from a container once another one is taken out: all that did before, but
for the one that is taken out. -/
theorem hasClash_of_eraseAt {k receiver rest : Container} {p t : List Nat} {e : Entry}
    (ht : k.at? t = some receiver) (hp : ¬ p <+: t)
    (hrest : (k.eraseAt p).at? (shift p t) = some rest) :
    rest.hasClash e = false ↔
      ∀ j x, receiver.entries[j]? = some x → x.clashes e = true → t ++ [j] = p := by
  by_cases htp : t <+: p
  · -- the entry is held in the container or below it
    obtain ⟨b, hb, rfl⟩ := exists_append_of_prefix htp hp
    rw [shift_append hb, at?_eraseAt_append hb, ht] at hrest
    obtain rfl := Option.some.inj hrest
    rw [hasClash_eq_false_iff, mem_keys_eraseAt hb]
    constructor
    · intro h j x hx hclash
      by_contra hne
      exact h ⟨j, x, hx, Entry.clashes_iff.mp hclash, fun heq => hne (by rw [heq])⟩
    · rintro h ⟨j, x, hx, hkey, hne⟩
      exact hne (List.append_cancel_left (h j x hx (Entry.clashes_iff.mpr hkey)))
  · -- the container is as it was
    rw [at?_shift hp htp, ht] at hrest
    obtain rfl := Option.some.inj hrest
    rw [hasClash_eq_false_iff, List.mem_iff_getElem?]
    constructor
    · intro h j x hx hclash
      exact absurd ⟨j, getElem?_keys_eq_some_iff.mpr ⟨x, hx, Entry.clashes_iff.mp hclash⟩⟩ h
    · rintro h ⟨j, hj⟩
      obtain ⟨x, hx, hkey⟩ := getElem?_keys_eq_some_iff.mp hj
      exact htp ⟨[j], h j x hx (Entry.clashes_iff.mpr hkey)⟩

end Container

end NodeCatalog
