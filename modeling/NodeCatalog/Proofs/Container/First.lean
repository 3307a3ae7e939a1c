import NodeCatalog.Container.Search
import NodeCatalog.Proofs.Container.Trace

/-!
# The first entry with an id

The searches go depth-first in insertion order, which is the lexicographic order of addresses: an
entry stands before those below it, and these before its next sibling.  `IsFirst` says in these
words what all searches look for, and `First` says the same by recursion on the tree; they agree
(`isFirst_iff`).  `locateDeep` tells the path along the address of the first entry, `takeOutDeep`
erases at this address, and `findDeep` answers what would be taken out.  Where no entry has the id,
none of them finds anything (`exists_first_or_absent`).
-/

namespace NodeCatalog

namespace Entry

/-- The entries of a list and all they hold, an entry before those it holds. -/
def listed (es : List Entry) : List Entry :=
  (walkAll 0 es).map Prod.snd

theorem map_snd_walkAll (d : Nat) (es : List Entry) :
    (walkAll d es).map Prod.snd = listed es := by
  suffices h : ∀ d d', (walkAll d es).map Prod.snd = (walkAll d' es).map Prod.snd from h d 0
  induction es using forest_induction with
  | nil => exact fun _ _ => rfl
  | category c sorted entries rest ihe ihr =>
    intro d d'
    simp only [walkAll, walk, List.map_append, List.map_cons, ihe (d + 1) (d' + 1), ihr d d']
  | template t rest ihr =>
    intro d d'
    simp only [walkAll, walk, List.map_append, List.map_cons, List.map_nil, ihr d d']

@[simp] theorem listed_nil : listed [] = [] :=
  rfl

@[simp] theorem listed_category (c : Category) (sorted : Bool) (entries rest : List Entry) :
    listed (category c sorted entries :: rest) =
      category c sorted entries :: (listed entries ++ listed rest) := by
  rw [listed, walkAll, walk, List.map_append, List.map_cons, map_snd_walkAll, map_snd_walkAll,
    List.cons_append]

@[simp] theorem listed_template (t : Template) (rest : List Entry) :
    listed (template t :: rest) = template t :: listed rest := by
  rw [listed, walkAll, walk, List.map_append, map_snd_walkAll]
  rfl

theorem listed_cons (e : Entry) (es : List Entry) : listed (e :: es) = listed [e] ++ listed es := by
  cases e <;> simp

theorem listed_eq_flatMap (es : List Entry) : listed es = es.flatMap fun e => listed [e] := by
  induction es with
  | nil => rfl
  | cons e es ih => rw [listed_cons, ih, List.flatMap_cons]

theorem mem_listed_self (e : Entry) (es : List Entry) : e ∈ listed (e :: es) := by
  cases e <;> simp

end Entry

namespace Container

/-! ### Addresses in a list with a first entry -/

theorem entryAt?_cons_succ (s : Bool) (x : Entry) (es : List Entry) (i : Nat) (a : List Nat) :
    entryAt? ((i + 1) :: a) ⟨s, x :: es⟩ = entryAt? (i :: a) ⟨s, es⟩ := by
  cases a <;> rfl

theorem eraseAt_cons_succ (s : Bool) (x : Entry) (es : List Entry) (i : Nat) (a : List Nat) :
    eraseAt ((i + 1) :: a) ⟨s, x :: es⟩ = ⟨s, x :: (eraseAt (i :: a) ⟨s, es⟩).entries⟩ := by
  cases a <;> rfl

theorem idsAt_cons_succ (s : Bool) (x : Entry) (es : List Entry) (i : Nat) (a : List Nat) :
    idsAt ((i + 1) :: a) ⟨s, x :: es⟩ = idsAt (i :: a) ⟨s, es⟩ :=
  rfl

/-! ### The first entry -/

/-- An entry with an id, none of which stands at an address before its own, in lexicographic
order. -/
structure IsFirst (k : Container) (id : String) (a : List Nat) (e : Entry) : Prop where
  entryAt : k.entryAt? a = some e
  id_eq : e.id = id
  least : ∀ b x, k.entryAt? b = some x → x.id = id → ¬ List.Lex (· < ·) b a

theorem lex_append {b c : List Nat} (a : List Nat) (h : List.Lex (· < ·) b c) :
    List.Lex (· < ·) (a ++ b) (a ++ c) := by
  induction a with
  | nil => exact h
  | cons i a ih => exact .cons ih

theorem IsFirst.unique {k : Container} {id : String} {a b : List Nat} {e x : Entry}
    (h : k.IsFirst id a e) (h' : k.IsFirst id b x) : a = b ∧ e = x := by
  have hab : a = b := List.lex_trichotomous (fun _ _ => by omega)
    (h.least b x h'.entryAt h'.id_eq) (h'.least a e h.entryAt h.id_eq)
  subst hab
  exact ⟨rfl, Option.some.inj (h.entryAt.symm.trans h'.entryAt)⟩

/-- The first entry with an id among some entries and all they hold, found by recursion. -/
inductive First (id : String) : List Entry → List Nat → Entry → Prop
  | here {e : Entry} {es : List Entry} (h : e.id = id) : First id (e :: es) [0] e
  | inside {c : Category} {sorted : Bool} {entries es : List Entry} {a : List Nat} {e : Entry}
    (hc : c.id ≠ id) (h : First id entries a e) :
    First id (.category c sorted entries :: es) (0 :: a) e
  | later {x : Entry} {es : List Entry} {i : Nat} {a : List Nat} {e : Entry}
    (hx : ∀ y ∈ Entry.listed [x], y.id ≠ id) (h : First id es (i :: a) e) :
    First id (x :: es) ((i + 1) :: a) e

theorem First.ne_nil {id : String} {es : List Entry} {a : List Nat} {e : Entry}
    (h : First id es a e) : a ≠ [] := by
  cases h <;> exact List.cons_ne_nil _ _

/-- Either some entry has the id, and then there is a first one, or none has. -/
theorem exists_first_or_absent (id : String) (es : List Entry) :
    (∃ a e, First id es a e) ∨ ∀ y ∈ Entry.listed es, y.id ≠ id := by
  -- an entry that does not have the id, nor holds one that does, may be passed over
  have step : ∀ x rest, (∀ y ∈ Entry.listed [x], y.id ≠ id) →
      ((∃ a e, First id rest a e) ∨ ∀ y ∈ Entry.listed rest, y.id ≠ id) →
      (∃ a e, First id (x :: rest) a e) ∨ ∀ y ∈ Entry.listed (x :: rest), y.id ≠ id := by
    rintro x rest hx (⟨a, e, h⟩ | h)
    · obtain ⟨i, a, rfl⟩ := List.exists_cons_of_ne_nil h.ne_nil
      exact Or.inl ⟨(i + 1) :: a, e, .later hx h⟩
    · right
      intro y hy
      rw [Entry.listed_cons, List.mem_append] at hy
      exact hy.elim (hx y) (h y)
  induction es using Entry.forest_induction with
  | nil => exact Or.inr fun y hy => nomatch hy
  | category c sorted entries rest ihe ihr =>
    by_cases hc : c.id = id
    · exact Or.inl ⟨[0], _, .here hc⟩
    · rcases ihe with ⟨a, e, h⟩ | h
      · exact Or.inl ⟨0 :: a, e, .inside hc h⟩
      · apply step _ rest _ ihr
        intro y hy
        rw [Entry.listed_category, Entry.listed_nil, List.append_nil, List.mem_cons] at hy
        rcases hy with rfl | hy
        · exact hc
        · exact h y hy
  | template t rest ihr =>
    by_cases ht : t.id = id
    · exact Or.inl ⟨[0], _, .here ht⟩
    · apply step _ rest _ ihr
      intro y hy
      rw [Entry.listed_template, Entry.listed_nil, List.mem_singleton] at hy
      rw [hy]
      exact ht

/-! ### The two descriptions agree -/

/-- What stands at an address is listed. -/
theorem mem_listed_of_entryAt? {k : Container} {a : List Nat} {e : Entry}
    (h : k.entryAt? a = some e) : e ∈ Entry.listed k.entries := by
  obtain ⟨s, es⟩ := k
  induction es using Entry.forest_induction generalizing s a with
  | nil =>
    match a with
    | [] => cases h
    | [i] => cases h
    | i :: j :: a => cases h
  | category c sorted entries rest ihe ihr =>
    rw [Entry.listed_category]
    match a with
    | [] => cases h
    | [0] =>
      obtain rfl := Option.some.inj h
      exact List.mem_cons_self
    | 0 :: j :: a => exact List.mem_cons_of_mem _ (List.mem_append_left _ (ihe sorted h))
    | (i + 1) :: a =>
      rw [entryAt?_cons_succ] at h
      exact List.mem_cons_of_mem _ (List.mem_append_right _ (ihr s h))
  | template t rest ihr =>
    rw [Entry.listed_template]
    match a with
    | [] => cases h
    | [0] =>
      obtain rfl := Option.some.inj h
      exact List.mem_cons_self
    | 0 :: j :: a => cases h
    | (i + 1) :: a =>
      rw [entryAt?_cons_succ] at h
      exact List.mem_cons_of_mem _ (ihr s h)

theorem First.isFirst {id : String} {es : List Entry} {a : List Nat} {e : Entry}
    (h : First id es a e) (s : Bool) : IsFirst ⟨s, es⟩ id a e := by
  induction h generalizing s with
  | here h =>
    refine ⟨rfl, h, ?_⟩
    intro b x hb _
    rcases b with _ | ⟨j, b⟩
    · cases hb
    · rw [List.cons_lex_cons_iff]
      rintro (hlt | ⟨-, hlt⟩)
      · exact Nat.not_lt_zero j hlt
      · exact List.not_lex_nil hlt
  | @inside c sorted entries es a e hc h ih =>
    obtain ⟨hentry, hid, hleast⟩ := ih sorted
    refine ⟨?_, hid, ?_⟩
    · rw [entryAt?_cons h.ne_nil]
      show entryAt? a ⟨sorted, entries⟩ = some e
      exact hentry
    · intro b x hb hx
      rcases b with _ | ⟨j, b⟩
      · cases hb
      rw [List.cons_lex_cons_iff]
      rintro (hlt | ⟨rfl, hlt⟩)
      · exact Nat.not_lt_zero j hlt
      · by_cases hnil : b = []
        · -- the category itself does not have the id
          subst hnil
          obtain rfl := Option.some.inj hb
          exact hc hx
        · rw [entryAt?_cons hnil] at hb
          exact hleast b x hb hx hlt
  | @later y es i a e hy h ih =>
    obtain ⟨hentry, hid, hleast⟩ := ih s
    refine ⟨?_, hid, ?_⟩
    · rw [entryAt?_cons_succ]
      exact hentry
    · intro b x hb hx
      rcases b with _ | ⟨_ | j, b⟩
      · cases hb
      · -- what stands at or below the first position does not have the id
        have hb' : entryAt? (0 :: b) ⟨s, [y]⟩ = some x := by
          cases b <;> exact hb
        exact absurd hx (hy x (mem_listed_of_entryAt? hb'))
      · rw [entryAt?_cons_succ] at hb
        have hbefore := hleast (j :: b) x hb hx
        rw [List.cons_lex_cons_iff] at hbefore ⊢
        rwa [Nat.add_lt_add_iff_right, Nat.add_right_cancel_iff]

theorem isFirst_iff {k : Container} {id : String} {a : List Nat} {e : Entry} :
    k.IsFirst id a e ↔ First id k.entries a e := by
  constructor
  · intro h
    rcases exists_first_or_absent id k.entries with ⟨b, x, hb⟩ | habsent
    · obtain ⟨rfl, rfl⟩ := h.unique (hb.isFirst k.sorted)
      exact hb
    · exact absurd h.id_eq (habsent e (mem_listed_of_entryAt? h.entryAt))
  · intro h
    exact h.isFirst k.sorted

/-- An id that occurs below a container is found there. -/
theorem exists_isFirst_of_mem {k : Container} {id : String}
    (h : id ∈ (Entry.listed k.entries).map Entry.id) : ∃ p e, k.IsFirst id p e := by
  rcases exists_first_or_absent id k.entries with ⟨p, e, hfirst⟩ | habsent
  · exact ⟨p, e, hfirst.isFirst k.sorted⟩
  · obtain ⟨z, hz, hid⟩ := List.mem_map.mp h
    exact absurd hid (habsent z hz)

/-! ### What the searches tell -/

theorem id_of_find? {k : Container} {id : String} {e : Entry} (h : k.find? id false = some e) :
    e.id = id := by
  rw [find?, if_neg Bool.false_ne_true] at h
  have := List.find?_some h
  exact beq_iff_eq.mp this

/-- The first entry below a container is the first one in the container that holds it. -/
theorem IsFirst.find? {k holder : Container} {id : String} {a : List Nat} {i : Nat} {e : Entry}
    (h : k.IsFirst id (a ++ [i]) e) (ha : k.at? a = some holder) :
    holder.find? id false = some e := by
  have he : holder.entries[i]? = some e := by
    have := h.entryAt
    rwa [entryAt?_concat, ha] at this
  obtain ⟨hi, hget⟩ := List.getElem?_eq_some_iff.mp he
  rw [Container.find?, if_neg Bool.false_ne_true, List.find?_eq_some_iff_getElem]
  refine ⟨beq_iff_eq.mpr h.id_eq, i, hi, hget, ?_⟩
  intro j hj
  rw [Bool.not_eq_true', beq_eq_false_iff_ne]
  intro hid
  -- an earlier sibling with the id would come first
  have hj' : holder.entries[j]? = some holder.entries[j] := List.getElem?_eq_getElem _
  refine h.least (a ++ [j]) holder.entries[j] ?_ hid (lex_append a (.rel hj))
  rw [entryAt?_concat, ha]
  exact hj'

theorem locateDeep_of_absent {id : String} {es : List Entry}
    (h : ∀ y ∈ Entry.listed es, y.id ≠ id) (path : String) : locateDeep id path es = none := by
  induction es using Entry.forest_induction generalizing path with
  | nil => rfl
  | category c sorted entries rest ihe ihr =>
    rw [Entry.listed_category] at h
    have hc : c.id ≠ id := h _ List.mem_cons_self
    rw [locateDeep, locateWithin, if_neg hc,
      ihe fun y hy => h y (List.mem_cons_of_mem _ (List.mem_append_left _ hy))]
    exact ihr (fun y hy => h y (List.mem_cons_of_mem _ (List.mem_append_right _ hy))) path
  | template t rest ihr =>
    rw [Entry.listed_template] at h
    have ht : t.id ≠ id := h _ List.mem_cons_self
    rw [locateDeep, locateWithin, if_neg ht]
    exact ihr (fun y hy => h y (List.mem_cons_of_mem _ hy)) path

theorem takeOutDeep_of_absent {id : String} {es : List Entry}
    (h : ∀ y ∈ Entry.listed es, y.id ≠ id) : takeOutDeep id es = none := by
  induction es using Entry.forest_induction with
  | nil => rfl
  | category c sorted entries rest ihe ihr =>
    rw [Entry.listed_category] at h
    have hc : c.id ≠ id := h _ List.mem_cons_self
    simp only [takeOutDeep, takeOutWithin, if_neg hc,
      ihe fun y hy => h y (List.mem_cons_of_mem _ (List.mem_append_left _ hy)),
      ihr fun y hy => h y (List.mem_cons_of_mem _ (List.mem_append_right _ hy))]
  | template t rest ihr =>
    rw [Entry.listed_template] at h
    have ht : t.id ≠ id := h _ List.mem_cons_self
    simp only [takeOutDeep, takeOutWithin, if_neg ht,
      ihr fun y hy => h y (List.mem_cons_of_mem _ hy)]

/-- The path of what holds the first entry is joined from the ids along its address. -/
theorem locateDeep_of_first {id : String} {es : List Entry} {a : List Nat} {e : Entry}
    (h : First id es a e) (s : Bool) (path : String) :
    locateDeep id path es = some ((idsAt a.dropLast ⟨s, es⟩).foldl Path.join path) := by
  induction h generalizing s path with
  | @here e es h =>
    cases e with
    | category c sorted entries =>
      have hc : c.id = id := h
      rw [locateDeep, locateWithin, if_pos hc]
      rfl
    | template t =>
      have ht : t.id = id := h
      rw [locateDeep, locateWithin, if_pos ht]
      rfl
  | @inside c sorted entries es a e hc h ih =>
    rw [locateDeep, locateWithin, if_neg hc, ih sorted, List.dropLast_cons_of_ne_nil h.ne_nil]
    rfl
  | @later x es i a e hx h ih =>
    have hnone : locateWithin id path x = none := by
      have := locateDeep_of_absent hx path
      rw [locateDeep] at this
      split at this
      · cases this
      · assumption
    rw [locateDeep, hnone]
    refine (ih s path).trans ?_
    rcases a with _ | ⟨j, a⟩
    · rfl
    · rw [List.dropLast_cons_cons, List.dropLast_cons_cons, idsAt_cons_succ]

/-- Taking out the first entry erases at its address. -/
theorem takeOutDeep_of_first {id : String} {es : List Entry} {a : List Nat} {e : Entry}
    (h : First id es a e) (s : Bool) :
    takeOutDeep id es = some (e, (eraseAt a ⟨s, es⟩).entries) := by
  induction h generalizing s with
  | @here e es h =>
    cases e with
    | category c sorted entries =>
      have hc : c.id = id := h
      rw [takeOutDeep, takeOutWithin, if_pos hc]
      rfl
    | template t =>
      have ht : t.id = id := h
      rw [takeOutDeep, takeOutWithin, if_pos ht]
      rfl
  | @inside c sorted entries es a e hc h ih =>
    rw [takeOutDeep, takeOutWithin, if_neg hc, ih sorted, eraseAt_cons h.ne_nil, modifyInner,
      List.modify_zero_cons, Entry.mapContainer, sorted_eraseAt]
    rfl
  | @later x es i a e hx h ih =>
    have hnone : takeOutWithin id x = none := by
      have := takeOutDeep_of_absent hx
      rw [takeOutDeep] at this
      split at this
      · cases this
      · assumption
    rw [takeOutDeep, hnone, ih s, eraseAt_cons_succ]

theorem removeDeep_of_isFirst {k : Container} {id : String} {a : List Nat} {e : Entry}
    (h : k.IsFirst id a e) : k.removeDeep id = some (e, k.eraseAt a) := by
  rw [removeDeep, takeOutDeep_of_first (isFirst_iff.mp h) k.sorted]
  exact congrArg (fun s => some (e, Container.mk s (k.eraseAt a).entries)) (sorted_eraseAt a k).symm

/-- What would be taken out is what is found. -/
theorem findDeep_eq (id : String) (es : List Entry) :
    findDeep id es = (takeOutDeep id es).map Prod.fst := by
  induction es using Entry.forest_induction with
  | nil => rfl
  | category c sorted entries rest ihe ihr =>
    rw [findDeep, findWithin, takeOutDeep, takeOutWithin]
    by_cases hc : c.id = id
    · rw [if_pos hc, if_pos hc]
      rfl
    · rw [if_neg hc, if_neg hc, ihe]
      rcases takeOutDeep id entries with _ | p
      · rw [ihr]
        rcases takeOutDeep id rest with _ | q <;> rfl
      · rfl
  | template t rest ihr =>
    rw [findDeep, findWithin, takeOutDeep, takeOutWithin]
    by_cases ht : t.id = id
    · rw [if_pos ht, if_pos ht]
      rfl
    · rw [if_neg ht, if_neg ht, ihr]
      rcases takeOutDeep id rest with _ | q <;> rfl

theorem find?_eq_removeDeep (id : String) (k : Container) :
    k.find? id true = (k.removeDeep id).map Prod.fst := by
  rw [find?, if_pos rfl, findDeep_eq, removeDeep]
  rcases takeOutDeep id k.entries with _ | p <;> rfl

theorem find?_of_isFirst {k : Container} {id : String} {a : List Nat} {e : Entry}
    (h : k.IsFirst id a e) : k.find? id true = some e := by
  rw [find?_eq_removeDeep, removeDeep_of_isFirst h, Option.map_some]

/-- The path that is told of the first entry is joined from the ids along the way to it. -/
theorem locate?_of_isFirst {k : Container} {id : String} {a : List Nat} {i : Nat} {e : Entry}
    (h : k.IsFirst id (a ++ [i]) e) (path : String) :
    k.locate? id path = some ((k.idsAt a).foldl Path.join path) := by
  rw [locate?, locateDeep_of_first (isFirst_iff.mp h) k.sorted, List.dropLast_concat]

/-- An entry that is located is the first one. -/
theorem exists_isFirst_of_locate? {k : Container} {id path source : String}
    (h : k.locate? id path = some source) :
    ∃ a i e, k.IsFirst id (a ++ [i]) e ∧ source = (k.idsAt a).foldl Path.join path := by
  rcases exists_first_or_absent id k.entries with ⟨a, e, hfirst⟩ | habsent
  · obtain ⟨b, i, holder, rfl, -, -⟩ := exists_of_entryAt? (hfirst.isFirst k.sorted).entryAt
    refine ⟨b, i, e, hfirst.isFirst k.sorted, ?_⟩
    rw [locate?_of_isFirst (hfirst.isFirst k.sorted)] at h
    exact (Option.some.inj h).symm
  · rw [locate?, locateDeep_of_absent habsent] at h
    cases h

end Container

end NodeCatalog
