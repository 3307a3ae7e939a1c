import Mathlib.Algebra.Order.Group.Multiset
import NodeCatalog.Proofs.Container.First

/-!
# Tallies

A tally counts what is seen of the entries of a tree; where they stand does not matter.  A change of
one container changes the tally of the tree by what it changes in that container, if the tally does
not see the change in the categories around it (`exists_tally_modifyAt`).  So an entry that is taken
out takes its own tally away (`tally_eraseAt`).
-/

namespace NodeCatalog

variable {α : Type}

namespace Entry

theorem listed_append (es fs : List Entry) : listed (es ++ fs) = listed es ++ listed fs := by
  induction es with
  | nil => rfl
  | cons e es ih => rw [List.cons_append, listed_cons, ih, listed_cons e es, List.append_assoc]

/-- What is seen of entries and all they hold, as often as it occurs. -/
def tally (see : Entry → α) (es : List Entry) : Multiset α :=
  ((listed es).map see : List α)

variable (see : Entry → α)

theorem tally_append (es fs : List Entry) : tally see (es ++ fs) = tally see es + tally see fs := by
  rw [tally, listed_append, List.map_append, ← Multiset.coe_add, tally, tally]

theorem tally_cons (e : Entry) (es : List Entry) :
    tally see (e :: es) = tally see [e] + tally see es :=
  tally_append see [e] es

/-- A category counts itself and what it holds. -/
theorem tally_category (c : Category) (sorted : Bool) (entries : List Entry) :
    tally see [category c sorted entries] =
      see (category c sorted entries) ::ₘ tally see entries := by
  rw [tally, listed_category, listed_nil, List.append_nil]
  rfl

variable {see}

theorem tally_of_getElem? {es : List Entry} {i : Nat} {e : Entry} (h : es[i]? = some e) :
    tally see es = tally see [e] + tally see (es.eraseIdx i) := by
  induction es generalizing i with
  | nil => cases h
  | cons x es ih =>
    cases i with
    | zero =>
      obtain rfl := Option.some.inj h
      exact tally_cons see x es
    | succ i =>
      rw [List.eraseIdx_cons_succ, tally_cons, ih h, tally_cons see x (es.eraseIdx i),
        add_left_comm]

theorem tally_modify {es : List Entry} {i : Nat} {e : Entry} (h : es[i]? = some e)
    (f : Entry → Entry) :
    tally see (es.modify i f) = tally see [f e] + tally see (es.eraseIdx i) := by
  have hmodify : (es.modify i f)[i]? = some (f e) := by
    rw [List.getElem?_modify_eq, h]
    rfl
  rw [tally_of_getElem? hmodify, List.eraseIdx_modify_of_eq]

end Entry

namespace Container

variable (see : Entry → α)

/-- The tally of what a container holds. -/
def tally (see : Entry → α) (k : Container) : Multiset α :=
  Entry.tally see k.entries

/-- A change of the container at an address leaves the rest of the tally as it is, if it cannot be
seen in the categories around. -/
theorem exists_tally_modifyAt {a : List Nat} {k inner : Container} (h : k.at? a = some inner) :
    ∃ rest, k.tally see = inner.tally see + rest ∧
      ∀ f, (∀ b e, see (e.mapContainer (modifyAt f b)) = see e) →
        (k.modifyAt f a).tally see = (f inner).tally see + rest := by
  induction a generalizing k with
  | nil =>
    obtain rfl := Option.some.inj h
    exact ⟨0, (add_zero _).symm, fun f _ => (add_zero _).symm⟩
  | cons i a ih =>
    obtain ⟨c, next, he, -, ha⟩ := exists_of_at?_cons h
    obtain ⟨rest, hrest, hmodify⟩ := ih ha
    -- the category that is gone through and its siblings stay as well
    refine ⟨rest + see (.category c next.sorted next.entries) ::ₘ
      Entry.tally see (k.entries.eraseIdx i), ?_, fun f hf => ?_⟩
    · rw [tally, Entry.tally_of_getElem? he, Entry.tally_category, ← tally, hrest,
        Multiset.cons_add, Multiset.add_cons, add_assoc, Multiset.add_cons]
    · have hsee := hf a (.category c next.sorted next.entries)
      rw [Entry.mapContainer] at hsee
      rw [modifyAt, modifyInner, tally, Entry.tally_modify he, Entry.mapContainer,
        Entry.tally_category, hsee, ← tally, hmodify f hf, Multiset.cons_add, Multiset.add_cons,
        add_assoc, Multiset.add_cons]

/-- An entry that is taken out takes its own tally away. -/
theorem tally_eraseAt {a : List Nat} {k : Container} {e : Entry} (h : k.entryAt? a = some e)
    (hsee : ∀ i b x, see (Entry.mapContainer (modifyAt (eraseAt [i]) b) x) = see x) :
    k.tally see = Entry.tally see [e] + (k.eraseAt a).tally see := by
  obtain ⟨b, i, inner, rfl, hb, hi⟩ := exists_of_entryAt? h
  obtain ⟨rest, hrest, hmodify⟩ := exists_tally_modifyAt see hb
  rw [eraseAt_append (List.cons_ne_nil i []), hmodify _ (hsee i), hrest, ← add_assoc]
  congr 1
  exact Entry.tally_of_getElem? hi

end Container

end NodeCatalog
