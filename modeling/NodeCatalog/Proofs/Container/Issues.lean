import NodeCatalog.Issue
import NodeCatalog.Proofs.Container.Display

/-!
# Issues container by container

An issue, and its text, names the entry that it is about (`names_explain`).  In a tree whose
containers can all be shown, the issues are those of each container, one container after the other
(`collect_of_display`).  The cause of an issue depends only on which ids the siblings of its kind
have and what they follow, and so neither on what the siblings hold nor on how they were inserted
(`ownIssues_of_perm`).
-/

namespace NodeCatalog

open Container

namespace Issue

/-! ### What an issue is about -/

/-- An issue, and its text, is about an entry of the container at a path. -/
structure Names (i : Issue) (path : String) (e : Entry) : Prop where
  path_eq : i.path = path
  id_eq : i.id = e.id
  after_eq : i.after = e.after
  message_eq : ∃ reason, i.message =
    "'" ++ e.id ++ "' in '" ++ path ++ "' is declared after " ++ reason

theorem names_explain (path : String) (siblings : List Entry) (e : Entry) :
    (explain path siblings e).Names path e :=
  ⟨rfl, rfl, rfl, exists_message_eq _⟩

@[simp] theorem cause_explain (path : String) (siblings : List Entry) (e : Entry) :
    (explain path siblings e).cause = causeOf siblings e :=
  rfl

/-! ### Containers -/

/-- The issues of one container; none if it cannot be shown. -/
def ownIssues (path : String) (k : Container) : List Issue :=
  match k.display with
  | .error _ => []
  | .ok shown => shown.problems.map (explain path k.entries)

theorem collect_of_display {containers : List (String × Container)}
    (h : ∀ p ∈ containers, ∃ shown, p.2.display = .ok shown) :
    collect containers = (containers.flatMap fun p => ownIssues p.1 p.2, none) := by
  induction containers with
  | nil => rfl
  | cons p rest ih =>
    obtain ⟨shown, hshown⟩ := h p List.mem_cons_self
    have hrest := ih fun q hq => h q (List.mem_cons_of_mem _ hq)
    have hown : ownIssues p.1 p.2 = shown.problems.map (explain p.1 p.2.entries) := by
      unfold ownIssues
      rw [hshown]
    rw [collect, hshown, hrest, List.flatMap_cons, hown]

/-! ### Causes -/

theorem leadsBack_congr {group group' : List Entry} (h : ∀ id, next group id = next group' id)
    (start : String) (seen : List String) (current : String) :
    leadsBack group start seen current = leadsBack group' start seen current := by
  fun_induction leadsBack group start seen current with
  | case1 seen current hnext => rw [leadsBack_eq, ← h, hnext]
  | case2 seen current hnext =>
    rw [leadsBack_eq, ← h, hnext]
    exact (if_pos rfl).symm
  | case3 seen current id hnext hid hseen =>
    rw [leadsBack_eq, ← h, hnext]
    exact ((if_neg hid).trans (if_pos hseen)).symm
  | case4 seen current id hnext hid hseen ih =>
    rw [leadsBack_eq group', ← h, hnext, ih]
    exact ((if_neg hid).trans (if_neg hseen)).symm

/-- The cause depends on what the entries of the kind follow. -/
theorem causeOf_congr {siblings siblings' : List Entry} {e e' : Entry} (hid : e.id = e'.id)
    (hafter : e.after = e'.after)
    (hnext : ∀ id, next (Entry.view.ofKind e.kind siblings) id =
      next (Entry.view.ofKind e'.kind siblings') id) :
    causeOf siblings e = causeOf siblings' e' := by
  simp only [causeOf, hid, hafter, hnext, leadsBack_congr hnext]

/-- The cause does not depend on what entries hold. -/
theorem causeOf_map_bare (siblings : List Entry) (e : Entry) :
    causeOf (siblings.map Entry.bare) e.bare = causeOf siblings e := by
  have hkind : e.bare.kind = e.kind := by cases e <;> rfl
  have hgroup : Entry.view.ofKind e.kind (siblings.map Entry.bare) =
      (Entry.view.ofKind e.kind siblings).map Entry.bare := by
    rw [After.View.ofKind_map, Entry.view_comap_bare]
  refine causeOf_congr (by cases e <;> rfl) (by cases e <;> rfl) fun id => ?_
  rw [hkind, hgroup, next, List.find?_map, next, Option.map_map]
  have hid : (fun x : Entry => x.id == id) ∘ Entry.bare = fun x => x.id == id := by
    funext x
    cases x <;> rfl
  have hafter : Entry.after ∘ Entry.bare = Entry.after := by
    funext x
    cases x <;> rfl
  rw [hid, hafter]

/-- If no two entries share an id, searching for one finds the entry that has it. -/
theorem find?_eq_some_iff_of_nodup {group : List Entry} (hids : (group.map Entry.id).Nodup)
    {id : String} {e : Entry} :
    (group.find? fun x => x.id == id) = some e ↔ e ∈ group ∧ e.id = id := by
  constructor
  · intro h
    exact ⟨List.mem_of_find?_eq_some h, by simpa using List.find?_some h⟩
  · rintro ⟨he, hid⟩
    cases h : group.find? fun x => x.id == id with
    | none => exact absurd hid (by simpa using List.find?_eq_none.mp h e he)
    | some x =>
      have hx : x.id = id := by simpa using List.find?_some h
      rw [List.inj_on_of_nodup_map hids (List.mem_of_find?_eq_some h) he (hx.trans hid.symm)]

/-- What the entry with an id follows does not depend on how the entries were inserted. -/
theorem next_eq_of_perm {group group' : List Entry} (hperm : group.Perm group')
    (hids : (group.map Entry.id).Nodup) (id : String) : next group id = next group' id := by
  have hids' : (group'.map Entry.id).Nodup := (hperm.map _).nodup_iff.mp hids
  unfold next
  congr 1
  ext e
  rw [find?_eq_some_iff_of_nodup hids, find?_eq_some_iff_of_nodup hids', hperm.mem_iff]

theorem causeOf_of_perm {siblings siblings' : List Entry} (hperm : siblings.Perm siblings')
    (hids : ∀ kind, ((Entry.view.ofKind kind siblings).map Entry.id).Nodup) (e : Entry) :
    causeOf siblings e = causeOf siblings' e :=
  causeOf_congr rfl rfl (next_eq_of_perm (hperm.filter _) (hids _))

/-- Explaining does not look at what entries hold. -/
theorem map_explain_bare (path : String) (siblings es : List Entry) :
    es.map (explain path siblings) =
      (es.map Entry.bare).map (explain path (siblings.map Entry.bare)) := by
  rw [List.map_map]
  apply List.map_congr_left
  intro e _
  rw [Function.comp_apply, explain, explain, causeOf_map_bare]
  cases e <;> rfl

/-- The issues of a container that sorts depend neither on what its entries hold nor on how they
were inserted. -/
theorem ownIssues_of_perm {es es' : List Entry}
    (hperm : (es.map Entry.bare).Perm (es'.map Entry.bare)) (path : String) :
    ownIssues path ⟨true, es⟩ = ownIssues path ⟨true, es'⟩ := by
  rcases arrange_of_perm_map (fun e => e) (fun e => e) (fun _ => rfl) hperm with
    ⟨fault, fault', h, h'⟩ | ⟨shown, shown', h, h', hmap⟩
  · unfold ownIssues display
    rw [h, h']
  · have hshown : ∃ shown, display ⟨true, es.map Entry.bare⟩ = .ok shown := by
      rw [display_map, arrange_bare (fun e => e), h]
      exact ⟨_, rfl⟩
    have hproblems : shown.problems.map Entry.bare = shown'.problems.map Entry.bare :=
      congrArg After.Ordered.problems hmap
    unfold ownIssues display
    rw [h, h']
    show shown.problems.map (explain path es) = shown'.problems.map (explain path es')
    rw [map_explain_bare, hproblems, map_explain_bare path es']
    apply List.map_congr_left
    intro e _
    unfold explain
    rw [causeOf_of_perm hperm (nodup_of_display hshown)]

end Issue

end NodeCatalog
