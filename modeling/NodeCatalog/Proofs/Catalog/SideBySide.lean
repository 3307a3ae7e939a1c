import NodeCatalog.Proofs.Catalog.Supply

/-!
# Two node sets in one catalog

A member has its id within its set, and the template that is made of it has the id of the set before
this one, joined by a full stop.  The joined text does not tell where the first id ends: both may
hold full stops, and member `b.c` of set `a` makes a template with the same id as member `c` of set
`a.b`.  Different sets come to share ids in this way only (`joined_eq_iff`): one set id continues
the other, by a text that the member of the other set has in front.

So a set is added in full behind another one exactly if no two members with such ids are declared at
one path (`Catalog.sideBySide`).  Otherwise templates of the second set are dropped as duplicates of
templates of the first (`Catalog.not_all_added_astride`).
-/

namespace NodeCatalog

/-! ### Joined ids -/

/-- Set id `b` continues set id `a` by a full stop and a text, and member id `x` has this text, and
a full stop, in front of member id `y`. -/
def Continues (a x b y : String) : Prop :=
  ∃ z, b = a ++ "." ++ z ∧ x = z ++ "." ++ y

theorem Continues.joined_eq {a x b y : String} (h : Continues a x b y) :
    a ++ "." ++ x = b ++ "." ++ y := by
  obtain ⟨z, rfl, rfl⟩ := h
  simp only [String.append_assoc]

/-- Of two joined texts that are equal, the one with the shorter set id has in its member id what the
longer set id has more. -/
theorem continues_of_toList {a x b y : String} {more : List Char} (hab : a ≠ b)
    (hb : b.toList = a.toList ++ more) (hx : '.' :: x.toList = more ++ '.' :: y.toList) :
    Continues a x b y := by
  rcases more with _ | ⟨mark, z⟩
  · rw [List.append_nil] at hb
    exact absurd (String.toList_injective hb.symm) hab
  · obtain ⟨rfl, hx⟩ := List.cons.inj hx
    refine ⟨String.ofList z, String.toList_injective ?_, String.toList_injective ?_⟩
    · simpa using hb
    · simpa using hx

/-- Different set ids make one text only if one of them continues the other. -/
theorem joined_eq_iff {a b : String} (hab : a ≠ b) (x y : String) :
    a ++ "." ++ x = b ++ "." ++ y ↔ Continues a x b y ∨ Continues b y a x := by
  constructor
  · intro h
    have hlist : a.toList ++ '.' :: x.toList = b.toList ++ '.' :: y.toList := by
      simpa using congrArg String.toList h
    rcases List.append_eq_append_iff.mp hlist with ⟨more, hb, hx⟩ | ⟨more, ha, hy⟩
    · exact .inl (continues_of_toList hab hb hx)
    · exact .inr (continues_of_toList hab.symm ha hy)
  · rintro (h | h)
    · exact h.joined_eq
    · exact h.joined_eq.symm

/-! ### Places of the templates of a set -/

namespace NodeTemplate

/-- Templates for different places all come first. -/
theorem firsts_eq_self {ts : List NodeTemplate} (h : (ts.map place).Nodup) : firsts ts = ts := by
  induction ts with
  | nil => rfl
  | cons t ts ih =>
    obtain ⟨ht, hts⟩ := List.nodup_cons.mp h
    rw [firsts, ih hts, List.cons.injEq]
    refine ⟨rfl, List.filter_eq_self.mpr fun u hu => decide_eq_true fun heq => ht ?_⟩
    exact heq ▸ List.mem_map_of_mem hu

end NodeTemplate

namespace NodeSet

variable {set s₁ s₂ : NodeSet}

/-- Members with different ids make templates for different places. -/
theorem nodup_places (h : (set.members.map Member.id).Nodup) :
    (set.templates.map NodeTemplate.place).Nodup := by
  have hids : (set.templates.map NodeTemplate.place).map Prod.snd =
      (set.members.map Member.id).map fun id => set.id ++ "." ++ id := by
    rw [templates, List.map_map, List.map_map, List.map_map]
    rfl
  refine .of_map Prod.snd ?_
  rw [hids]
  exact h.map fun _ _ heq => (String.append_right_inj _).mp heq

/-- Members of two sets make templates for one place if they are declared at one path and one set id
continues the other. -/
theorem place_template_eq_iff (h : s₁.id ≠ s₂.id) (m₁ m₂ : Member) :
    (s₁.template m₁).place = (s₂.template m₂).place ↔
      Path.segments m₁.path = Path.segments m₂.path ∧
        (Continues s₁.id m₁.id s₂.id m₂.id ∨ Continues s₂.id m₂.id s₁.id m₁.id) := by
  rw [NodeTemplate.place, NodeTemplate.place, Prod.mk.injEq]
  exact and_congr_right fun _ => joined_eq_iff h m₁.id m₂.id

/-- No members of two sets are declared at one path and have ids with which one set id continues the
other. -/
def ApartFrom (s₁ s₂ : NodeSet) : Prop :=
  ∀ m₁ ∈ s₁.members, ∀ m₂ ∈ s₂.members, Path.segments m₁.path = Path.segments m₂.path →
    ¬ (Continues s₁.id m₁.id s₂.id m₂.id ∨ Continues s₂.id m₂.id s₁.id m₁.id)

theorem apartFrom_iff (h : s₁.id ≠ s₂.id) :
    s₁.ApartFrom s₂ ↔ ∀ t ∈ s₂.templates, t.place ∉ s₁.templates.map NodeTemplate.place := by
  constructor
  · intro hapart t ht hplace
    obtain ⟨m₂, hm₂, rfl⟩ := List.mem_map.mp ht
    obtain ⟨t₁, ht₁, heq⟩ := List.mem_map.mp hplace
    obtain ⟨m₁, hm₁, rfl⟩ := List.mem_map.mp ht₁
    obtain ⟨hpath, hids⟩ := (place_template_eq_iff h m₁ m₂).mp heq
    exact hapart m₁ hm₁ m₂ hm₂ hpath hids
  · intro hplaces m₁ hm₁ m₂ hm₂ hpath hids
    refine hplaces (s₂.template m₂) (List.mem_map_of_mem hm₂) ?_
    rw [← (place_template_eq_iff h m₁ m₂).mpr ⟨hpath, hids⟩]
    exact List.mem_map_of_mem (List.mem_map_of_mem hm₁)

/-- Sets are apart if neither id continues the other. -/
theorem apartFrom_of_ids (h₁ : ∀ z, s₂.id ≠ s₁.id ++ "." ++ z)
    (h₂ : ∀ z, s₁.id ≠ s₂.id ++ "." ++ z) : s₁.ApartFrom s₂ := by
  rintro m₁ - m₂ - - (⟨z, hz, -⟩ | ⟨z, hz, -⟩)
  · exact h₁ z hz
  · exact h₂ z hz

end NodeSet

namespace Catalog

/-! ### Adding one set and then another -/

@[simp] theorem templatesAt_empty (settings : Settings) (ids : List String) :
    (empty settings).templatesAt ids = [] := by
  cases ids <;> rfl

/-- Nothing is taken in an empty catalog. -/
theorem newcomers_empty (settings : Settings) (ts : List NodeTemplate) :
    (empty settings).newcomers ts = NodeTemplate.firsts ts := by
  have hfree : ∀ place, (empty settings).Free place := by
    intro place u hu
    rw [templatesAt_empty] at hu
    cases hu
  rw [newcomers, List.filter_eq_self.mpr fun t _ => decide_eq_true (hfree t.place)]

/-- Templates that were added have taken their places. -/
theorem newcomers_withMembers (cat : Catalog) (set : NodeSet) (ts us : List NodeTemplate) :
    (cat.withMembers (ts.map fun t => (set, t))).newcomers us =
      (cat.newcomers us).filter fun u => u.place ∉ ts.map NodeTemplate.place := by
  induction ts generalizing cat with
  | nil => simp [withMembers]
  | cons t ts ih =>
    have hstep : cat.withMembers ((t :: ts).map fun t => (set, t)) =
        (cat.addMember set t).catalog.withMembers (ts.map fun t => (set, t)) := rfl
    rw [hstep, ih, newcomers_addMember, List.filter_filter]
    refine List.filter_congr fun u _ => ?_
    simp [Bool.and_comm]

theorem addNodeSet_empty (settings : Settings) {set : NodeSet}
    (h : (set.members.map NodeSet.Member.id).Nodup) :
    (empty settings).addNodeSet set = ⟨.ok set.templates,
      (empty settings).withMembers (set.templates.map fun t => (set, t))⟩ := by
  rw [addNodeSet, addMembers_eq_newcomers, newcomers_empty,
    NodeTemplate.firsts_eq_self (NodeSet.nodup_places h)]

/-- Behind another set, those templates of a set are added whose place the other has not taken. -/
theorem answer_second (settings : Settings) {s₁ s₂ : NodeSet}
    (h₁ : (s₁.members.map NodeSet.Member.id).Nodup)
    (h₂ : (s₂.members.map NodeSet.Member.id).Nodup) :
    (((empty settings).addNodeSet s₁).catalog.addNodeSet s₂).answer =
      .ok (s₂.templates.filter fun t => t.place ∉ s₁.templates.map NodeTemplate.place) := by
  rw [addNodeSet_empty settings h₁, addNodeSet, addMembers_eq_newcomers, newcomers_withMembers,
    newcomers_empty, NodeTemplate.firsts_eq_self (NodeSet.nodup_places h₂)]

/-- What two node sets have to do with each other that are added to an empty catalog, the second
behind the first. -/
structure SideBySide (settings : Settings) (s₁ s₂ : NodeSet) : Prop where
  first : ((empty settings).addNodeSet s₁).answer = .ok s₁.templates
  /-- Of the second set the templates are dropped whose place the first one has taken. -/
  second : (((empty settings).addNodeSet s₁).catalog.addNodeSet s₂).answer =
    .ok (s₂.templates.filter fun t => t.place ∉ s₁.templates.map NodeTemplate.place)
  /-- None is dropped exactly if the sets are apart. -/
  all_iff : (((empty settings).addNodeSet s₁).catalog.addNodeSet s₂).answer = .ok s₂.templates ↔
    s₁.ApartFrom s₂
  /-- So it is if neither set id continues the other. -/
  unrelated (h₁ : ∀ z, s₂.id ≠ s₁.id ++ "." ++ z) (h₂ : ∀ z, s₁.id ≠ s₂.id ++ "." ++ z) :
    (((empty settings).addNodeSet s₁).catalog.addNodeSet s₂).answer = .ok s₂.templates

/-- Of two node sets with different ids, each with different ids for its members, the first is added
in full, and the second one loses what the first has taken from it. -/
theorem sideBySide (settings : Settings) {s₁ s₂ : NodeSet} (hid : s₁.id ≠ s₂.id)
    (h₁ : (s₁.members.map NodeSet.Member.id).Nodup)
    (h₂ : (s₂.members.map NodeSet.Member.id).Nodup) : SideBySide settings s₁ s₂ := by
  have hsecond := answer_second settings h₁ h₂
  have hall : (((empty settings).addNodeSet s₁).catalog.addNodeSet s₂).answer = .ok s₂.templates ↔
      s₁.ApartFrom s₂ := by
    rw [hsecond, Except.ok.injEq, List.filter_eq_self, NodeSet.apartFrom_iff hid]
    simp only [decide_eq_true_eq]
  exact
    { first := congrArg Edited.answer (addNodeSet_empty settings h₁)
      second := hsecond
      all_iff := hall
      unrelated := fun hne₁ hne₂ => hall.mpr (NodeSet.apartFrom_of_ids hne₁ hne₂) }

/-- A set whose member has a full stop in its id. -/
def dotted (path : String) : NodeSet :=
  { id := "a", members := [{ id := "b.c", name := "X", factory := "f", path }] }

/-- A set that has the full stop in its own id. -/
def astride : NodeSet :=
  { id := "a.b", members := [{ id := "c", name := "Y", factory := "g", path := "/" }] }

theorem sideBySide_dotted :
    ((dotted "/p").id ≠ astride.id ∧ ((dotted "/p").members.map NodeSet.Member.id).Nodup ∧
      (astride.members.map NodeSet.Member.id).Nodup) ∧
    SideBySide {} (dotted "/p") astride ∧ (dotted "/p").ApartFrom astride := by
  have hid : (dotted "/p").id ≠ astride.id := by decide
  have h₁ : ((dotted "/p").members.map NodeSet.Member.id).Nodup := by decide
  have h₂ : (astride.members.map NodeSet.Member.id).Nodup := by decide
  have h := sideBySide {} hid h₁ h₂
  refine ⟨⟨hid, h₁, h₂⟩, h, h.all_iff.mp ?_⟩
  rw [h.second]
  decide +kernel

/-- Of two sets with different ids and one member each, the second is not added. -/
theorem not_all_added_astride :
    (dotted "/").id ≠ astride.id ∧ ((dotted "/").members.map NodeSet.Member.id).Nodup ∧
      (astride.members.map NodeSet.Member.id).Nodup ∧
      (((empty {}).addNodeSet (dotted "/")).catalog.addNodeSet astride).answer ≠
        .ok astride.templates := by
  have h₁ : ((dotted "/").members.map NodeSet.Member.id).Nodup := by decide
  have h₂ : (astride.members.map NodeSet.Member.id).Nodup := by decide
  refine ⟨by decide, h₁, h₂, ?_⟩
  rw [answer_second {} h₁ h₂]
  decide +kernel

end Catalog

end NodeCatalog
