import NodeCatalog.Proofs.After.Invariance
import NodeCatalog.Snapshot

/-!
# Showing what containers hold

Arranging looks at entries through their view only, and so not at what they hold: things are
arranged as the bare entries they carry (`arrange_map`, `Entry.view_comap_bare`), and keep what else
they carry.

Where a tree can be captured, every container in it can be shown (`display_of_capture`), and every
search for a factory is answered (`findFactory_of_capture`).
-/

namespace NodeCatalog

/-! ### Sequences of answers -/

section Answers

variable {α : Type u} {β γ : Type v}

/-- Two answers are the same, or both are faults. -/
theorem toOption_eq_iff {a b : Except Fault α} : a.toOption = b.toOption ↔
    (∃ fault fault', a = .error fault ∧ b = .error fault') ∨ ∃ x, a = .ok x ∧ b = .ok x := by
  rcases a with fault | x <;> rcases b with fault' | y <;> simp [Except.toOption, eq_comm]

/-- Where two steps are answered, the first is, and the second goes on from its answer. -/
theorem exists_of_bind_eq_ok {a : Except Fault β} {f : β → Except Fault γ} {y : γ}
    (h : a >>= f = .ok y) : ∃ x, a = .ok x ∧ f x = .ok y := by
  cases a with
  | error fault => cases h
  | ok x => exact ⟨x, rfl, h⟩

/-- Naming a fault otherwise does not change what is answered. -/
theorem eq_ok_of_mapError {a : Except β α} {f : β → γ} {x : α} (h : a.mapError f = .ok x) :
    a = .ok x := by
  cases a with
  | error fault => cases h
  | ok y => exact congrArg Except.ok (Except.ok.inj h)

/-- Where all members of a list are answered, each is. -/
theorem exists_of_mapM_eq_ok {f : α → Except Fault β} {as : List α} {bs : List β}
    (h : as.mapM f = .ok bs) {a : α} (ha : a ∈ as) : ∃ b, f a = .ok b := by
  induction as generalizing bs with
  | nil => exact absurd ha List.not_mem_nil
  | cons c as ih =>
    rw [List.mapM_cons] at h
    obtain ⟨b, hc, h⟩ := exists_of_bind_eq_ok h
    obtain ⟨cs, has, -⟩ := exists_of_bind_eq_ok h
    rcases List.mem_cons.mp ha with rfl | ha
    · exact ⟨b, hc⟩
    · exact ih has ha

/-- Where each member of a list is answered, all are. -/
theorem exists_mapM_eq_ok {f : α → Except Fault β} {as : List α} (h : ∀ a ∈ as, ∃ b, f a = .ok b) :
    ∃ bs, as.mapM f = .ok bs := by
  induction as with
  | nil => exact ⟨[], rfl⟩
  | cons a as ih =>
    obtain ⟨⟨b, hb⟩, has⟩ := List.forall_mem_cons.mp h
    obtain ⟨bs, hbs⟩ := ih has
    refine ⟨b :: bs, ?_⟩
    rw [List.mapM_cons, hb, hbs]
    rfl

/-- Where members correspond that give the same answers, so do the lists. -/
theorem toOption_mapM_congr {f : α → Except Fault γ} {g : β → Except Fault γ} {as : List α}
    {bs : List β} (h : List.Forall₂ (fun a b => (f a).toOption = (g b).toOption) as bs) :
    (as.mapM f).toOption = (bs.mapM g).toOption := by
  induction h with
  | nil => rfl
  | cons hab _ ih =>
    rw [List.mapM_cons, List.mapM_cons]
    rcases toOption_eq_iff.mp hab with ⟨_, _, ha, hb⟩ | ⟨x, ha, hb⟩
    · rw [ha, hb]
      rfl
    · rcases toOption_eq_iff.mp ih with ⟨_, _, has, hbs⟩ | ⟨xs, has, hbs⟩
      · rw [ha, hb, has, hbs]
        rfl
      · rw [ha, hb, has, hbs]

end Answers

/-! ### Bare entries -/

/-- An entry without what it holds. -/
def Entry.bare : Entry → Entry
  | category c sorted _ => category c sorted []
  | template t => template t

/-- The ordering does not see what an entry holds. -/
theorem Entry.view_comap_bare : Entry.view.comap Entry.bare = Entry.view := by
  have hid : ∀ e : Entry, e.bare.id = e.id := by rintro (_ | _) <;> rfl
  have hname : ∀ e : Entry, e.bare.name = e.name := by rintro (_ | _) <;> rfl
  have hafter : ∀ e : Entry, e.bare.after = e.after := by rintro (_ | _) <;> rfl
  have hkind : ∀ e : Entry, e.bare.kind = e.kind := by rintro (_ | _) <;> rfl
  simp only [After.View.comap, view, After.View.byName, hid, hname, hafter, hkind]
  rfl

namespace Container

/-! ### Arranging -/

section Arrange

variable {α β : Type} {entry : α → Entry} {sorted : Bool}

/-- Things are arranged like what they are mapped to. -/
theorem arrange_map (entry : α → Entry) (sorted : Bool) (f : β → α) (things : List β) :
    arrange entry sorted (things.map f) =
      (arrange (fun b => entry (f b)) sorted things).map (After.Ordered.map f) := by
  cases sorted with
  | false => rfl
  | true =>
    unfold arrange
    rw [if_pos rfl, if_pos rfl, After.order_map]
    -- seeing through both functions in turn is seeing through both at once
    show _ = ((After.order ((Entry.view.comap entry).comap f) things).mapError _).map _
    cases After.order ((Entry.view.comap entry).comap f) things <;> rfl

theorem arrange_bare (entry : α → Entry) (sorted : Bool) (things : List α) :
    arrange (fun a => (entry a).bare) sorted things = arrange entry sorted things := by
  have hview : Entry.view.comap (fun a => (entry a).bare) = Entry.view.comap entry :=
    congrArg (After.View.comap entry) Entry.view_comap_bare
  unfold arrange
  rw [hview]

/-- The entries of arranged things are what the container of these entries shows. -/
theorem display_map (entry : α → Entry) (sorted : Bool) (things : List α) :
    display ⟨sorted, things.map entry⟩ =
      (arrange entry sorted things).map (After.Ordered.map entry) :=
  arrange_map (fun e => e) sorted entry things

/-- What is computed for entries comes along when their container is shown. -/
theorem arrange_of_display {es : List Entry} {shown : After.Ordered Entry}
    (h : display ⟨sorted, es⟩ = .ok shown) (f : Entry → β) :
    arrange Prod.fst sorted (es.map fun e => (e, f e)) = .ok (shown.map fun e => (e, f e)) := by
  rw [arrange_map]
  change (display ⟨sorted, es⟩).map _ = _
  rw [h]
  rfl

theorem perm_of_arrange {things : List α} {shown : After.Ordered α}
    (h : arrange entry sorted things = .ok shown) : shown.items.Perm things := by
  cases sorted with
  | false =>
    obtain rfl := Except.ok.inj h
    exact .refl _
  | true =>
    unfold arrange at h
    rw [if_pos rfl] at h
    exact After.perm_of_order (eq_ok_of_mapError h)

/-- In a container that sorts and can be shown, no two entries of a kind share an id. -/
theorem nodup_of_display {es : List Entry} (h : ∃ shown, display ⟨true, es⟩ = .ok shown)
    (kind : After.Kind) : ((Entry.view.ofKind kind es).map Entry.id).Nodup := by
  obtain ⟨shown, h⟩ := h
  unfold display arrange at h
  rw [if_pos rfl] at h
  exact After.exists_order_eq_ok_iff.mp ⟨shown, eq_ok_of_mapError h⟩ kind

/-- Things that sort are arranged in one way, in whatever order they are given. -/
theorem arrange_perm (entry : α → Entry) {things things' : List α} (h : things.Perm things') :
    (arrange entry true things).toOption = (arrange entry true things').toOption := by
  have htrans : Std.TransCmp (Entry.view.comap entry).compare :=
    inferInstanceAs <| Std.TransCmp <|
      After.View.byName (fun a => (entry a).name) fun a => (entry a).id
  have horder := After.order_perm (v := Entry.view.comap entry)
    (fun a b heq => (After.View.eq_of_byName heq).2) h
  unfold arrange
  rw [if_pos rfl, if_pos rfl]
  revert horder
  cases After.order (Entry.view.comap entry) things <;>
    cases After.order (Entry.view.comap entry) things' <;> intro horder <;> cases horder <;> rfl

/-- Things that sort, and of which the same is seen, are arranged in the same way. -/
theorem arrange_of_perm_map {γ : Type} (entry : α → Entry) (bare : γ → Entry) {see : α → γ}
    (hsee : ∀ a, bare (see a) = (entry a).bare) {things things' : List α}
    (h : (things.map see).Perm (things'.map see)) :
    (∃ fault fault', arrange entry true things = .error fault ∧
      arrange entry true things' = .error fault') ∨
    ∃ shown shown', arrange entry true things = .ok shown ∧
      arrange entry true things' = .ok shown' ∧ shown.map see = shown'.map see := by
  have hmap : ∀ as, arrange bare true (as.map see) =
      (arrange entry true as).map (After.Ordered.map see) := by
    intro as
    rw [arrange_map, funext hsee, arrange_bare]
  have hperm := arrange_perm bare h
  rw [hmap, hmap] at hperm
  cases hthings : arrange entry true things with
  | error fault =>
    cases hthings' : arrange entry true things' with
    | error fault' => exact .inl ⟨fault, fault', rfl, rfl⟩
    | ok shown' =>
      rw [hthings, hthings'] at hperm
      cases hperm
  | ok shown =>
    cases hthings' : arrange entry true things' with
    | error fault' =>
      rw [hthings, hthings'] at hperm
      cases hperm
    | ok shown' =>
      rw [hthings, hthings'] at hperm
      exact .inr ⟨shown, shown', rfl, rfl, Option.some.inj hperm⟩

end Arrange

end Container

/-! ### Trees that can be captured -/

open Container Snapshot

theorem Snapshot.nodesEach_eq_map (es : List Entry) :
    nodesEach es = es.map fun e => (e, nodesWithin e) := by
  induction es with
  | nil => rfl
  | cons e es ih => rw [nodesEach, ih, List.map_cons]

theorem Container.findFactoryEach_eq_map (factory : String) (es : List Entry) :
    findFactoryEach factory es = es.map fun e => (e, findFactoryWithin factory e) := by
  induction es with
  | nil => rfl
  | cons e es ih => rw [findFactoryEach, ih, List.map_cons]

theorem Container.containersDeep_eq_flatMap (path : String) (es : List Entry) :
    containersDeep path es = es.flatMap (containersWithin path) := by
  induction es with
  | nil => rfl
  | cons e es ih => rw [containersDeep, ih, List.flatMap_cons]

/-- A container can be shown if and only if things that carry its entries can be arranged. -/
theorem Container.exists_display_iff {β : Type} {sorted : Bool} {f : Entry → β}
    (es : List Entry) :
    (∃ shown, display ⟨sorted, es⟩ = .ok shown) ↔
      ∃ shown, arrange Prod.fst sorted (es.map fun e => (e, f e)) = .ok shown := by
  have hdisplay := display_map Prod.fst sorted (es.map fun e => (e, f e))
  rw [List.map_map, Function.comp_def, List.map_id'] at hdisplay
  rw [hdisplay]
  cases arrange Prod.fst sorted (es.map fun e => (e, f e)) <;> simp [Except.map]

/-- Where the nodes of entries are given, the container of these entries can be shown, and the nodes
of what each entry holds are given. -/
theorem Snapshot.exists_of_shownNodes {sorted : Bool} {es : List Entry} {nodes : List Node}
    (h : shownNodes sorted (nodesEach es) = .ok nodes) :
    (∃ shown, display ⟨sorted, es⟩ = .ok shown) ∧ ∀ e ∈ es, ∃ ns, nodesWithin e = .ok ns := by
  rw [nodesEach_eq_map] at h
  unfold shownNodes at h
  obtain ⟨shown, harrange, h⟩ := exists_of_bind_eq_ok h
  refine ⟨(exists_display_iff es).mpr ⟨shown, harrange⟩, fun e he => ?_⟩
  have hmem : (e, nodesWithin e) ∈ shown.items :=
    (perm_of_arrange harrange).mem_iff.mpr (List.mem_map_of_mem he)
  obtain ⟨node, hnode⟩ := exists_of_mapM_eq_ok h hmem
  obtain ⟨ns, hwithin, -⟩ := exists_of_bind_eq_ok hnode
  exact ⟨ns, hwithin⟩

/-- Where the nodes of what entries hold are given, all containers below can be shown. -/
theorem Container.exists_display_of_nodes {es : List Entry}
    (h : ∀ e ∈ es, ∃ ns, nodesWithin e = .ok ns) (path : String) :
    ∀ p ∈ containersDeep path es, ∃ shown, p.2.display = .ok shown := by
  induction es using Entry.forest_induction generalizing path with
  | nil => exact fun p hp => absurd hp List.not_mem_nil
  | category c sorted entries rest ihe ihr =>
    obtain ⟨ns, hns⟩ := h _ List.mem_cons_self
    obtain ⟨hdisplay, hinner⟩ := exists_of_shownNodes hns
    intro p hp
    rcases List.mem_append.mp hp with hp | hp
    · rcases List.mem_cons.mp hp with rfl | hp
      · exact hdisplay
      · exact ihe hinner _ p hp
    · exact ihr (fun e he => h e (List.mem_cons_of_mem _ he)) path p hp
  | template t rest ihr =>
    exact ihr (fun e he => h e (List.mem_cons_of_mem _ he)) path

theorem Container.exists_firstFound {answers : List (Except Fault (Option NodeTemplate))}
    (h : ∀ a ∈ answers, ∃ t, a = .ok t) : ∃ t, firstFound answers = .ok t := by
  induction answers with
  | nil => exact ⟨none, rfl⟩
  | cons a answers ih =>
    obtain ⟨t, rfl⟩ := h a List.mem_cons_self
    cases t with
    | some t => exact ⟨some t, rfl⟩
    | none => exact ih fun b hb => h b (List.mem_cons_of_mem _ hb)

/-- A search is answered in a container that can be shown if it is answered in each entry. -/
theorem Container.exists_firstShown {factory : String} {sorted : Bool} {es : List Entry}
    (hdisplay : ∃ shown, display ⟨sorted, es⟩ = .ok shown)
    (h : ∀ e ∈ es, ∃ t, findFactoryWithin factory e = .ok t) :
    ∃ t, firstShown sorted (findFactoryEach factory es) = .ok t := by
  rw [findFactoryEach_eq_map]
  obtain ⟨shown, harrange⟩ := (exists_display_iff es).mp hdisplay
  rw [firstShown, harrange]
  refine exists_firstFound fun a ha => ?_
  obtain ⟨p, hp, rfl⟩ := List.mem_map.mp ha
  obtain ⟨e, he, rfl⟩ := List.mem_map.mp ((perm_of_arrange harrange).mem_iff.mp hp)
  exact h e he

/-- Where the nodes of what entries hold are given, every search in them is answered. -/
theorem Container.exists_findFactoryWithin {es : List Entry}
    (h : ∀ e ∈ es, ∃ ns, nodesWithin e = .ok ns) (factory : String) :
    ∀ e ∈ es, ∃ t, findFactoryWithin factory e = .ok t := by
  induction es using Entry.forest_induction with
  | nil => exact fun e he => absurd he List.not_mem_nil
  | category c sorted entries rest ihe ihr =>
    obtain ⟨ns, hns⟩ := h _ List.mem_cons_self
    obtain ⟨hdisplay, hinner⟩ := exists_of_shownNodes hns
    intro e he
    rcases List.mem_cons.mp he with rfl | he
    · exact exists_firstShown hdisplay (ihe hinner)
    · exact ihr (fun e he => h e (List.mem_cons_of_mem _ he)) e he
  | template t rest ihr =>
    intro e he
    rcases List.mem_cons.mp he with rfl | he
    · cases t <;> exact ⟨_, rfl⟩
    · exact ihr (fun e he => h e (List.mem_cons_of_mem _ he)) e he

/-- The nodes of a snapshot are those of the container that it is taken of. -/
theorem Snapshot.shownNodes_of_capture {k : Container} {s : Snapshot} (h : capture k = .ok s) :
    shownNodes k.sorted (nodesEach k.entries) = .ok s.children := by
  unfold capture at h
  obtain ⟨nodes, hnodes, h⟩ := exists_of_bind_eq_ok h
  obtain rfl := Except.ok.inj h
  exact hnodes

/-- A container that is captured can be shown, and the nodes of what each entry holds are given. -/
theorem Snapshot.exists_of_capture {k : Container} {s : Snapshot} (h : capture k = .ok s) :
    (∃ shown, k.display = .ok shown) ∧ ∀ e ∈ k.entries, ∃ ns, nodesWithin e = .ok ns :=
  exists_of_shownNodes (shownNodes_of_capture h)

/-- All containers of a tree that is captured can be shown. -/
theorem Container.display_of_capture {k : Container} {s : Snapshot} (h : capture k = .ok s)
    (path : String) : ∀ p ∈ k.containers path, ∃ shown, p.2.display = .ok shown := by
  obtain ⟨hdisplay, hinner⟩ := exists_of_capture h
  intro p hp
  rcases List.mem_cons.mp hp with rfl | hp
  · exact hdisplay
  · exact exists_display_of_nodes hinner path p hp

/-- Every search for a factory is answered in a tree that is captured. -/
theorem Container.findFactory_of_capture {k : Container} {s : Snapshot} (h : capture k = .ok s)
    (factory : String) : ∃ t, k.findFactory factory = .ok t := by
  obtain ⟨hdisplay, hinner⟩ := exists_of_capture h
  exact exists_firstShown hdisplay (exists_findFactoryWithin hinner factory)

end NodeCatalog
