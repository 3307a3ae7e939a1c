import NodeCatalog.Proofs.Container.Tidy

/-!
# What relocating does to a tree

Relocating goes from the top down: each category joins its id to the path that it has just been
given, and what it holds is given the result.  So afterwards every path is joined from the path that
was given to the whole and the ids of the categories around the entry, whatever paths were there
before, and a search that joins ids on its own way down tells the path of what it finds.  Nothing
but paths is changed: `Entry.unplaced` forgets these, and sees no difference.

Walking to an address and relocating commute (`at?_relocated`), which reduces a fact about all that
is held to one about the entries of a single container.
-/

namespace NodeCatalog

open Container

namespace Entry

mutual

/-- An entry and all it holds, with no word of the paths that they are declared below. -/
def unplaced : Entry → Entry
  | category c sorted entries => category { c with path := Path.root } sorted (unplacedAll entries)
  | template t => template (t.withPath Path.root)

/-- The entries of a list, with no word of the paths that they are declared below. -/
def unplacedAll : List Entry → List Entry
  | [] => []
  | e :: es => unplaced e :: unplacedAll es

end

/-! ### What is kept, and what is overwritten -/

theorem withPath_withPath (p q : String) (t : Template) :
    (t.withPath p).withPath q = t.withPath q := by
  cases t <;> rfl

theorem unplacedAll_relocateAll (path : String) (es : List Entry) :
    unplacedAll (relocateAll path es) = unplacedAll es := by
  induction es using forest_induction generalizing path with
  | nil => rfl
  | category c sorted entries rest ihe ihr =>
    simp only [relocateAll, relocate, unplacedAll, unplaced, ihe, ihr]
  | template t rest ihr =>
    simp only [relocateAll, relocate, unplacedAll, unplaced, withPath_withPath, ihr]

theorem relocateAll_relocateAll (p q : String) (es : List Entry) :
    relocateAll q (relocateAll p es) = relocateAll q es := by
  induction es using forest_induction generalizing p q with
  | nil => rfl
  | category c sorted entries rest ihe ihr =>
    -- the path that the entries of the category had been given does not matter either
    simp only [relocateAll, relocate, ihe, ihr]
  | template t rest ihr => simp only [relocateAll, relocate, withPath_withPath, ihr]

theorem unplaced_relocate (path : String) (e : Entry) :
    (e.relocate path).unplaced = e.unplaced := by
  have h := unplacedAll_relocateAll path [e]
  rw [relocateAll, unplacedAll, unplacedAll] at h
  exact (List.cons.inj h).1

theorem relocate_relocate (p q : String) (e : Entry) :
    (e.relocate p).relocate q = e.relocate q := by
  have h := relocateAll_relocateAll p q [e]
  rw [relocateAll, relocateAll, relocateAll] at h
  exact (List.cons.inj h).1

end Entry

/-! ### Addresses -/

namespace Container

/-- A container with all entries below another path. -/
def relocated (path : String) (k : Container) : Container :=
  { k with entries := Entry.relocateAll path k.entries }

theorem getElem?_relocated (path : String) (k : Container) (i : Nat) :
    (k.relocated path).entries[i]? = k.entries[i]?.map (Entry.relocate path) := by
  rw [relocated, Entry.relocateAll_eq_map, List.getElem?_map]

theorem inner?_relocated (path : String) (k : Container) (i : Nat) :
    (k.relocated path).inner? i =
      k.entries[i]?.bind fun e => e.container?.map (relocated (Path.join path e.id)) := by
  rw [inner?, getElem?_relocated, Option.bind_map]
  congr 1
  funext e
  exact Entry.container?_relocate path e

@[simp] theorem idsAt_relocated (path : String) (a : List Nat) (k : Container) :
    (k.relocated path).idsAt a = k.idsAt a := by
  induction a generalizing k path with
  | nil => rfl
  | cons i a ih =>
    rw [idsAt, idsAt, getElem?_relocated]
    rcases k.entries[i]? with _ | ⟨c, sorted, entries⟩ | t
    · rfl
    · exact congrArg (c.id :: ·) (ih (Path.join path c.id) ⟨sorted, entries⟩)
    · rfl

/-- What an address leads to in a relocated container is below the path joined from the ids on the
way. -/
theorem at?_relocated (path : String) (a : List Nat) (k : Container) :
    (k.relocated path).at? a =
      (k.at? a).map fun inner => inner.relocated ((k.idsAt a).foldl Path.join path) := by
  induction a generalizing k path with
  | nil => rfl
  | cons i a ih =>
    rw [at?, at?, inner?_relocated, inner?, idsAt]
    rcases k.entries[i]? with _ | ⟨c, sorted, entries⟩ | t
    · rfl
    · exact ih (Path.join path c.id) ⟨sorted, entries⟩
    · rfl

/-- Each entry in a relocated container has the path joined from the ids of the categories around
it. -/
theorem path_of_entryAt?_relocated {k : Container} {path : String} {a : List Nat} {i : Nat}
    {x : Entry} (h : (k.relocated path).entryAt? (a ++ [i]) = some x) :
    x.path = (k.idsAt a).foldl Path.join path := by
  rw [entryAt?_concat, at?_relocated, Option.bind_map] at h
  obtain ⟨inner, -, hi⟩ := Option.bind_eq_some_iff.mp h
  rw [Function.comp_apply, getElem?_relocated] at hi
  obtain ⟨e, -, rfl⟩ := Option.map_eq_some_iff.mp hi
  exact Entry.path_relocate _ e

end Container

/-! ### Relocating an entry -/

namespace Entry

/-- The second entry is the first one, relocated to a path. -/
structure Relocated (path : String) (e e' : Entry) : Prop where
  path_eq : e'.path = path
  /-- What it holds is declared below the path that is joined from this one, its own id, and the ids
  of the categories on the way. -/
  placed (k : Container) (hk : e'.container? = some k) (a : List Nat) (i : Nat) (x : Entry)
    (hx : k.entryAt? (a ++ [i]) = some x) : x.path = (e'.id :: k.idsAt a).foldl Path.join path
  /-- The two differ in nothing but paths. -/
  rest : e'.unplaced = e.unplaced
  /-- Nothing remains of the path when the entry is relocated once more. -/
  again (q : String) : e'.relocate q = e.relocate q
  /-- Where a category tells that an entry is located, the entry itself is declared. -/
  located (c : Category) (sorted : Bool) (entries : List Entry) (id source : String)
    (hc : e' = category c sorted entries)
    (hsource : Container.locate? ⟨sorted, entries⟩ id c.fullPath = some source) :
    ∃ a x, IsFirst ⟨sorted, entries⟩ id a x ∧ Container.find? ⟨sorted, entries⟩ id true = some x ∧
      x.path = source

/-- Each entry in a relocated category has the path joined from that of the category and the ids on
the way. -/
theorem path_of_entryAt?_relocate {e : Entry} {path : String} {k : Container} {a : List Nat}
    {i : Nat} {x : Entry} (hk : (e.relocate path).container? = some k)
    (hx : k.entryAt? (a ++ [i]) = some x) :
    x.path = (e.id :: k.idsAt a).foldl Path.join path := by
  rw [container?_relocate] at hk
  obtain ⟨inner, -, rfl⟩ := Option.map_eq_some_iff.mp hk
  have hx' : (inner.relocated (Path.join path e.id)).entryAt? (a ++ [i]) = some x := hx
  rw [path_of_entryAt?_relocated hx', List.foldl_cons, ← idsAt_relocated (Path.join path e.id)]
  rfl

/-- Whatever the tree and the path, relocating makes the paths what the places of the entries say,
and changes nothing else. -/
theorem relocated_relocate (path : String) (e : Entry) : Relocated path e (e.relocate path) where
  path_eq := path_relocate path e
  placed k hk a i x hx := by
    rw [path_of_entryAt?_relocate hk hx, id_relocate]
  rest := unplaced_relocate path e
  again q := relocate_relocate path q e
  located c sorted entries id source hc hsource := by
    obtain ⟨a, i, x, hfirst, rfl⟩ := exists_isFirst_of_locate? hsource
    refine ⟨a ++ [i], x, hfirst, find?_of_isFirst hfirst, ?_⟩
    have hk : (e.relocate path).container? = some ⟨sorted, entries⟩ := by rw [hc, container?]
    have hid : e.id = c.id := by rw [← id_relocate path e, hc, Entry.id]
    have hpath : c.path = path := by rw [← path_relocate path e, hc, Entry.path]
    rw [path_of_entryAt?_relocate hk hfirst.entryAt, hid, List.foldl_cons, Category.fullPath, hpath]

end Entry

end NodeCatalog
