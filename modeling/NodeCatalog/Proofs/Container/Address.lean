import NodeCatalog.Container.Basic

/-!
# Addresses

Ids may repeat in a tree, so a place in it is named by positions: an address leads from a container
to one below it, each number being the position of a category among the entries of the container
reached so far.  An address that is not empty also names an entry, the last number being its
position.  The entry and what it holds have the same address, and an entry lies below another
exactly if its address continues that of the other.

Containers are looked up by `at?` and changed by `modifyAt`, entries are looked up by `entryAt?` and
taken out by `eraseAt`.  Taking an entry out moves its later siblings by one place, and `shift` says
which address a container has then.  Of a container that the entry lies in, `at?_eraseAt_append` and
`eraseAt_append` tell what is left; all other containers are as they were (`at?_shift`), and changes
of them commute with the erasure (`modifyAt_shift`).
-/

namespace NodeCatalog

/-! ### Changing what a category holds -/

namespace Entry

/-- Changes what a category holds. -/
def mapContainer (f : Container → Container) : Entry → Entry
  | category c sorted entries =>
    category c (f ⟨sorted, entries⟩).sorted (f ⟨sorted, entries⟩).entries
  | template t => template t

@[simp] theorem id_mapContainer (f : Container → Container) (e : Entry) :
    (e.mapContainer f).id = e.id := by
  cases e <;> rfl

@[simp] theorem kind_mapContainer (f : Container → Container) (e : Entry) :
    (e.mapContainer f).kind = e.kind := by
  cases e <;> rfl

@[simp] theorem container?_mapContainer (f : Container → Container) (e : Entry) :
    (e.mapContainer f).container? = e.container?.map f := by
  cases e <;> rfl

theorem mapContainer_mapContainer (f g : Container → Container) (e : Entry) :
    (e.mapContainer g).mapContainer f = e.mapContainer (f ∘ g) := by
  cases e <;> rfl

/-- Only a category holds something. -/
theorem container?_eq_some_iff {e : Entry} {k : Container} :
    e.container? = some k ↔ ∃ c, e = category c k.sorted k.entries := by
  cases e with
  | category c sorted entries =>
    rw [container?, Option.some.injEq]
    constructor
    · rintro rfl
      exact ⟨c, rfl⟩
    · rintro ⟨d, h⟩
      cases h
      rfl
  | template t =>
    constructor
    · rintro ⟨⟩
    · rintro ⟨c, h⟩
      cases h

end Entry

/-- A fact about a container that follows from the same fact about what its categories hold is true
of all containers. -/
theorem Container.induction {motive : Container → Prop}
    (step : ∀ k : Container,
      (∀ e ∈ k.entries, ∀ inner, e.container? = some inner → motive inner) → motive k)
    (k : Container) : motive k := by
  suffices h : ∀ es : List Entry, ∀ e ∈ es, ∀ inner, e.container? = some inner → motive inner from
    step k (h k.entries)
  intro es
  induction es using Entry.forest_induction with
  | nil => exact nofun
  | category c sorted entries rest ihe ihr =>
    refine List.forall_mem_cons.mpr ⟨?_, ihr⟩
    rintro _ ⟨⟩
    exact step _ ihe
  | template t rest ihr => exact List.forall_mem_cons.mpr ⟨nofun, ihr⟩

namespace Container

/-- What the category at a position holds. -/
def inner? (k : Container) (i : Nat) : Option Container :=
  k.entries[i]?.bind Entry.container?

/-- Changes what the category at a position holds. -/
def modifyInner (i : Nat) (f : Container → Container) (k : Container) : Container :=
  { k with entries := k.entries.modify i (Entry.mapContainer f) }

theorem inner?_modifyInner_self (i : Nat) (f : Container → Container) (k : Container) :
    (k.modifyInner i f).inner? i = (k.inner? i).map f := by
  rw [inner?, inner?, modifyInner, List.getElem?_modify_eq]
  rcases k.entries[i]? with _ | e
  · rfl
  · exact Entry.container?_mapContainer f e

theorem inner?_modifyInner_of_ne {i j : Nat} (h : i ≠ j) (f : Container → Container)
    (k : Container) : (k.modifyInner i f).inner? j = k.inner? j := by
  rw [inner?, inner?, modifyInner, List.getElem?_modify_ne _ _ h]

theorem modifyInner_modifyInner_self (i : Nat) (f g : Container → Container) (k : Container) :
    (k.modifyInner i g).modifyInner i f = k.modifyInner i (f ∘ g) := by
  rw [modifyInner, modifyInner, modifyInner, List.modify_modify_eq]
  congr 2
  funext e
  exact Entry.mapContainer_mapContainer f g e

theorem modifyInner_comm {i j : Nat} (h : i ≠ j) (f g : Container → Container) (k : Container) :
    (k.modifyInner i f).modifyInner j g = (k.modifyInner j g).modifyInner i f := by
  rw [modifyInner, modifyInner, modifyInner, modifyInner, List.modify_modify_ne _ _ _ h]

/-! ### Containers at an address -/

/-- The container at an address. -/
def at? : List Nat → Container → Option Container
  | [], k => some k
  | i :: a, k => (k.inner? i).bind (at? a)

/-- Changes the container at an address. -/
def modifyAt (f : Container → Container) : List Nat → Container → Container
  | [], k => f k
  | i :: a, k => k.modifyInner i (modifyAt f a)

/-- An address goes through the category at its first position. -/
theorem exists_of_at?_cons {i : Nat} {a : List Nat} {k inner : Container}
    (h : k.at? (i :: a) = some inner) :
    ∃ c next, k.entries[i]? = some (.category c next.sorted next.entries) ∧
      k.inner? i = some next ∧ next.at? a = some inner := by
  obtain ⟨next, hnext, ha⟩ := Option.bind_eq_some_iff.mp h
  obtain ⟨e, he, hc⟩ := Option.bind_eq_some_iff.mp hnext
  obtain ⟨c, rfl⟩ := Entry.container?_eq_some_iff.mp hc
  exact ⟨c, next, he, hnext, ha⟩

/-- An address is followed part by part. -/
theorem at?_append (a b : List Nat) (k : Container) :
    k.at? (a ++ b) = (k.at? a).bind (at? b) := by
  induction a generalizing k with
  | nil => rfl
  | cons i a ih =>
    rw [List.cons_append, at?, at?, Option.bind_assoc]
    congr 1
    funext inner
    exact ih inner

theorem at?_modifyAt (f : Container → Container) (a : List Nat) (k : Container) :
    (k.modifyAt f a).at? a = (k.at? a).map f := by
  induction a generalizing k with
  | nil => rfl
  | cons i a ih =>
    rw [modifyAt, at?, at?, inner?_modifyInner_self]
    rcases k.inner? i with _ | inner
    · rfl
    · exact ih inner

theorem modifyAt_modifyAt (f g : Container → Container) (a : List Nat) (k : Container) :
    (k.modifyAt g a).modifyAt f a = k.modifyAt (f ∘ g) a := by
  induction a generalizing k with
  | nil => rfl
  | cons i a ih =>
    rw [modifyAt, modifyAt, modifyAt, modifyInner_modifyInner_self]
    congr 1
    funext inner
    exact ih inner

@[simp] theorem modifyAt_id (a : List Nat) (k : Container) : k.modifyAt id a = k := by
  induction a generalizing k with
  | nil => rfl
  | cons i a ih =>
    have hmap : Entry.mapContainer (modifyAt id a) = id := by
      funext e
      cases e with
      | category c sorted entries => rw [Entry.mapContainer, ih]; rfl
      | template t => rfl
    rw [modifyAt, modifyInner, hmap, List.modify_id]

/-- Changes that agree on the container at an address make the same tree. -/
theorem modifyAt_congr {f g : Container → Container} {a : List Nat} {k inner : Container}
    (h : k.at? a = some inner) (hfg : f inner = g inner) : k.modifyAt f a = k.modifyAt g a := by
  induction a generalizing k with
  | nil =>
    obtain rfl := Option.some.inj h
    exact hfg
  | cons i a ih =>
    obtain ⟨c, next, he, -, ha⟩ := exists_of_at?_cons h
    rw [modifyAt, modifyAt, modifyInner, modifyInner]
    congr 1
    apply List.ext_getElem?
    intro j
    by_cases hij : i = j
    · subst hij
      rw [List.getElem?_modify_eq, List.getElem?_modify_eq, he]
      exact congrArg some (by rw [Entry.mapContainer, Entry.mapContainer, ih ha])
    · rw [List.getElem?_modify_ne _ _ hij, List.getElem?_modify_ne _ _ hij]

/-! ### Entries at an address -/

/-- The entry at an address. -/
def entryAt? : List Nat → Container → Option Entry
  | [], _ => none
  | [i], k => k.entries[i]?
  | i :: j :: a, k => (k.inner? i).bind (entryAt? (j :: a))

/-- Takes out the entry at an address. -/
def eraseAt : List Nat → Container → Container
  | [], k => k
  | [i], k => { k with entries := k.entries.eraseIdx i }
  | i :: j :: a, k => k.modifyInner i (eraseAt (j :: a))

theorem entryAt?_cons {a : List Nat} (ha : a ≠ []) (i : Nat) (k : Container) :
    k.entryAt? (i :: a) = (k.inner? i).bind (entryAt? a) := by
  cases a with
  | nil => exact absurd rfl ha
  | cons j a => rfl

theorem eraseAt_cons {a : List Nat} (ha : a ≠ []) (i : Nat) (k : Container) :
    k.eraseAt (i :: a) = k.modifyInner i (eraseAt a) := by
  cases a with
  | nil => exact absurd rfl ha
  | cons j a => rfl

theorem entryAt?_append {b : List Nat} (hb : b ≠ []) (a : List Nat) (k : Container) :
    k.entryAt? (a ++ b) = (k.at? a).bind (entryAt? b) := by
  induction a generalizing k with
  | nil => rfl
  | cons i a ih =>
    have hab : a ++ b ≠ [] := List.append_ne_nil_of_right_ne_nil a hb
    rw [List.cons_append, entryAt?_cons hab, at?, Option.bind_assoc]
    congr 1
    funext inner
    exact ih inner

/-- The entry at an address is the one at its last position in the container at the rest. -/
theorem entryAt?_concat (a : List Nat) (i : Nat) (k : Container) :
    k.entryAt? (a ++ [i]) = (k.at? a).bind fun inner => inner.entries[i]? :=
  entryAt?_append (List.cons_ne_nil i []) a k

/-- What holds the entry at an address. -/
theorem exists_of_entryAt? {a : List Nat} {k : Container} {e : Entry}
    (h : k.entryAt? a = some e) :
    ∃ b i inner, a = b ++ [i] ∧ k.at? b = some inner ∧ inner.entries[i]? = some e := by
  rcases List.eq_nil_or_concat a with rfl | ⟨b, i, rfl⟩
  · cases h
  · rw [List.concat_eq_append] at h ⊢
    rw [entryAt?_concat] at h
    obtain ⟨inner, hb, hi⟩ := Option.bind_eq_some_iff.mp h
    exact ⟨b, i, inner, rfl, hb, hi⟩

/-- An entry that is taken out is taken out of every container that it lies in. -/
theorem eraseAt_append {b : List Nat} (hb : b ≠ []) (a : List Nat) (k : Container) :
    k.eraseAt (a ++ b) = k.modifyAt (eraseAt b) a := by
  induction a generalizing k with
  | nil => rfl
  | cons i a ih =>
    have hab : a ++ b ≠ [] := List.append_ne_nil_of_right_ne_nil a hb
    rw [List.cons_append, eraseAt_cons hab, modifyAt]
    congr 1
    funext inner
    exact ih inner

/-- What is left of a container that the entry lies in. -/
theorem at?_eraseAt_append {b : List Nat} (hb : b ≠ []) (a : List Nat) (k : Container) :
    (k.eraseAt (a ++ b)).at? a = (k.at? a).map (eraseAt b) := by
  rw [eraseAt_append hb, at?_modifyAt]

@[simp] theorem sorted_eraseAt (a : List Nat) (k : Container) :
    (k.eraseAt a).sorted = k.sorted := by
  match a with
  | [] => rfl
  | [i] => rfl
  | i :: j :: a => rfl

/-! ### Addresses after an erasure -/

/-- The address that a container with address `t` has once the entry at `p` is taken out. -/
def shift : List Nat → List Nat → List Nat
  | [i], j :: t => (if i < j then j - 1 else j) :: t
  | i :: i' :: p, j :: t => if i = j then j :: shift (i' :: p) t else j :: t
  | _, t => t

theorem shift_nil (p : List Nat) : shift p [] = [] := by
  match p with
  | [] => rfl
  | [i] => rfl
  | i :: i' :: p => rfl

theorem shift_cons_self {p : List Nat} (hp : p ≠ []) (j : Nat) (t : List Nat) :
    shift (j :: p) (j :: t) = j :: shift p t := by
  cases p with
  | nil => exact absurd rfl hp
  | cons i p => rw [shift, if_pos rfl]

theorem shift_cons_of_ne {p : List Nat} (hp : p ≠ []) {i j : Nat} (h : i ≠ j) (t : List Nat) :
    shift (i :: p) (j :: t) = j :: t := by
  cases p with
  | nil => exact absurd rfl hp
  | cons i' p => rw [shift, if_neg h]

/-- A container that the entry lies in keeps its address. -/
theorem shift_append {b : List Nat} (hb : b ≠ []) (t : List Nat) : shift (t ++ b) t = t := by
  induction t with
  | nil => exact shift_nil b
  | cons j t ih =>
    rw [List.cons_append, shift_cons_self (List.append_ne_nil_of_right_ne_nil t hb), ih]

/-- If the entry does not hold a container that it lies in, it has an address in this container. -/
theorem exists_append_of_prefix {p t : List Nat} (h : t <+: p) (hp : ¬ p <+: t) :
    ∃ b, b ≠ [] ∧ p = t ++ b := by
  obtain ⟨b, rfl⟩ := h
  refine ⟨b, ?_, rfl⟩
  rintro rfl
  rw [List.append_nil] at hp
  exact hp (List.prefix_refl t)

/-- Where the entry at position `j` stands once the one at position `i` is taken out. -/
theorem getElem?_eraseIdx_shift {α : Type} {i j : Nat} (h : i ≠ j) (l : List α) :
    (l.eraseIdx i)[if i < j then j - 1 else j]? = l[j]? := by
  split
  · rw [List.getElem?_eraseIdx_of_ge (by omega), Nat.sub_add_cancel (by omega)]
  · rw [List.getElem?_eraseIdx_of_lt (by omega)]

theorem modify_eraseIdx_shift {α : Type} {i j : Nat} (h : i ≠ j) (f : α → α) (l : List α) :
    (l.eraseIdx i).modify (if i < j then j - 1 else j) f = (l.modify j f).eraseIdx i := by
  split
  · rw [List.eraseIdx_modify_of_lt _ _ _ _ (by omega)]
  · rw [List.eraseIdx_modify_of_gt _ _ _ _ (by omega)]

/-- A container that the entry does not lie in, and that does not lie below the entry, is as it
was. -/
theorem at?_shift {p t : List Nat} (hp : ¬ p <+: t) (ht : ¬ t <+: p) (k : Container) :
    (k.eraseAt p).at? (shift p t) = k.at? t := by
  induction t generalizing p k with
  | nil => exact absurd List.nil_prefix ht
  | cons j t ih =>
    rcases p with _ | ⟨i, p⟩
    · exact absurd List.nil_prefix hp
    by_cases hne : p = []
    · subst hne
      have hij : i ≠ j := fun h => hp (h ▸ List.cons_prefix_cons.mpr ⟨rfl, List.nil_prefix⟩)
      rw [shift, at?, at?, inner?, inner?, eraseAt, getElem?_eraseIdx_shift hij]
    · rw [eraseAt_cons hne]
      by_cases hij : i = j
      · -- both addresses go on in one category
        subst hij
        rw [List.cons_prefix_cons, not_and] at hp ht
        rw [shift_cons_self hne, at?, at?, inner?_modifyInner_self]
        rcases k.inner? i with _ | inner
        · rfl
        · exact ih (hp rfl) (ht rfl) inner
      · rw [shift_cons_of_ne hne hij, at?, at?, inner?_modifyInner_of_ne hij]

/-- A change of such a container may be made before the entry is taken out. -/
theorem modifyAt_shift {p t : List Nat} (hp : ¬ p <+: t) (ht : ¬ t <+: p)
    (f : Container → Container) (k : Container) :
    (k.eraseAt p).modifyAt f (shift p t) = (k.modifyAt f t).eraseAt p := by
  induction t generalizing p k with
  | nil => exact absurd List.nil_prefix ht
  | cons j t ih =>
    rcases p with _ | ⟨i, p⟩
    · exact absurd List.nil_prefix hp
    by_cases hne : p = []
    · subst hne
      have hij : i ≠ j := fun h => hp (h ▸ List.cons_prefix_cons.mpr ⟨rfl, List.nil_prefix⟩)
      rw [shift, modifyAt, modifyAt, eraseAt, eraseAt, modifyInner, modifyInner,
        modify_eraseIdx_shift hij]
    · rw [eraseAt_cons hne, eraseAt_cons hne]
      by_cases hij : i = j
      · subst hij
        rw [List.cons_prefix_cons, not_and] at hp ht
        rw [shift_cons_self hne, modifyAt, modifyAt, modifyInner_modifyInner_self,
          modifyInner_modifyInner_self]
        congr 1
        funext inner
        exact ih (hp rfl) (ht rfl) inner
      · rw [shift_cons_of_ne hne hij, modifyAt, modifyAt, modifyInner_comm hij]

end Container

end NodeCatalog
