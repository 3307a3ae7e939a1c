import NodeCatalog.Proofs.Json.Record

/-!
# Forms whose records are read back

A reader may open arrays and objects to some depth only.  The law of a form therefore speaks of the
records that are written no deeper than that (`Form.LawfulAt`): the reader takes each of them from
its value.  A form that is lawful in every depth reads what it writes, on one line or over several,
if this nests no deeper than texts may (`Form.Lawful.parse_write`).

Where records hold lists of other records, the law of the one follows from the law of the other in
smaller depths (`Form.takes_list`, `Reader.takes_record_nested`).
-/

namespace NodeCatalog.Json

variable {α σ : Type}

/-! ### Depth -/

namespace Value

mutual

/-- How deep arrays and objects nest in a value. -/
def depth : Value → Nat
  | flag _ => 0
  | text _ => 0
  | array items => itemsDepth items + 1
  | object members => membersDepth members + 1

/-- How deep arrays and objects nest in some items. -/
def itemsDepth : List Value → Nat
  | [] => 0
  | v :: vs => max v.depth (itemsDepth vs)

/-- How deep arrays and objects nest in the values of some members. -/
def membersDepth : List (String × Value) → Nat
  | [] => 0
  | m :: ms => max (memberDepth m) (membersDepth ms)

/-- How deep arrays and objects nest in the value of a member. -/
def memberDepth : String × Value → Nat
  | (_, v) => v.depth

end

theorem depth_le_itemsDepth {v : Value} {vs : List Value} (h : v ∈ vs) :
    v.depth ≤ itemsDepth vs := by
  induction vs with
  | nil => exact absurd h List.not_mem_nil
  | cons w vs ih =>
    rw [itemsDepth]
    rcases List.mem_cons.mp h with rfl | h
    · exact Nat.le_max_left _ _
    · exact Nat.le_trans (ih h) (Nat.le_max_right _ _)

theorem depth_le_membersDepth (key : String) {v : Value} {ms : List (String × Value)}
    (h : (key, v) ∈ ms) : v.depth ≤ membersDepth ms := by
  induction ms with
  | nil => exact absurd h List.not_mem_nil
  | cons m ms ih =>
    rw [membersDepth]
    rcases List.mem_cons.mp h with rfl | h
    · rw [memberDepth]
      exact Nat.le_max_left _ _
    · exact Nat.le_trans (ih h) (Nat.le_max_right _ _)

theorem itemsDepth_le {n : Nat} {vs : List Value} (h : ∀ v ∈ vs, v.depth ≤ n) :
    itemsDepth vs ≤ n := by
  induction vs with
  | nil => exact Nat.zero_le n
  | cons v vs ih =>
    rw [itemsDepth]
    exact Nat.max_le.mpr ⟨h v List.mem_cons_self, ih fun w hw => h w (List.mem_cons_of_mem v hw)⟩

theorem membersDepth_append (ms ms' : List (String × Value)) :
    membersDepth (ms ++ ms') = max (membersDepth ms) (membersDepth ms') := by
  induction ms with
  | nil => rw [List.nil_append, membersDepth, Nat.zero_max]
  | cons m ms ih => rw [List.cons_append, membersDepth, membersDepth, ih, Nat.max_assoc]

theorem membersDepth_optionalMember (key : String) (text : Option String) :
    membersDepth (optionalMember key text) = 0 := by
  cases text <;> rfl

end Value

/-! ### Laws -/

namespace Form

/-- The reader for a depth takes back each record whose value nests no deeper. -/
def LawfulAt (form : Form α) (depth : Nat) : Prop :=
  ∀ a, (form.value a).depth ≤ depth → (form.reader depth).Takes (form.value a) a

/-- The readers for all depths take back the records that they have room for. -/
def Lawful (form : Form α) : Prop :=
  ∀ depth, form.LawfulAt depth

/-- A list of records is taken back in some depth, where its records are in every smaller one. -/
theorem takes_list (form : Form α) {depth : Nat} (h : ∀ d < depth, form.LawfulAt d) {as : List α}
    (hdepth : (Value.array (as.map form.value)).depth ≤ depth) :
    (Reader.list (nested depth form.reader)).Takes (.array (as.map form.value)) as := by
  rw [Value.depth] at hdepth
  obtain ⟨d, rfl⟩ := Nat.exists_eq_add_one.mpr (Nat.lt_of_lt_of_le (Nat.succ_pos _) hdepth)
  refine Reader.takes_list ?_
  rw [List.forall₂_map_left_iff, List.forall₂_same]
  intro a ha
  have hle := Value.depth_le_itemsDepth (List.mem_map_of_mem (f := form.value) ha)
  exact h d (Nat.lt_succ_self d) a (by omega)

end Form

/-- A record is taken from an object that there is room for, if its members fill the record in the
depth that is left for them. -/
theorem Reader.takes_record_nested (type : String) {inside : Nat → Schema σ} {depth : Nat}
    {ms : List (String × Value)} {a : σ} (hdepth : (Value.object ms).depth ≤ depth)
    (hnames : ∀ d, ((inside d).fields.map Field.name).Nodup)
    (h : ∀ d, Value.membersDepth ms ≤ d → Fills (inside d).fields ms (inside d).blank a) :
    (Reader.record type (nested depth inside)).Takes (.object ms) a := by
  rw [Value.depth] at hdepth
  obtain ⟨d, rfl⟩ := Nat.exists_eq_add_one.mpr (Nat.lt_of_lt_of_le (Nat.succ_pos _) hdepth)
  exact takes_record type (hnames d) (h d (Nat.le_of_succ_le_succ hdepth))

/-! ### Whole texts -/

theorem parse_of_takes {p : Nat → Reader α} {v : Value} {a : α} (h : (p maxDepth).Takes v a)
    {l : Layout} (hl : l.Spaced) : parse p (String.ofList (v.write l 0)) = .ok a := by
  have hread := h l hl 0 [] [] spacing_nil
  rw [List.nil_append, List.append_nil] at hread
  rw [parse, String.toList_ofList, hread]
  rfl

/-- A record that nests no deeper than texts may is read back from both of its texts. -/
theorem Form.Lawful.parse_write {form : Form α} (h : form.Lawful) {a : α}
    (hdepth : (form.value a).depth ≤ maxDepth) :
    form.parse (form.write a) = .ok a ∧ form.parse (form.writePretty a) = .ok a :=
  ⟨parse_of_takes (h maxDepth a hdepth) Layout.spaced_compact,
    parse_of_takes (h maxDepth a hdepth) Layout.spaced_pretty⟩

/-- Every record is read back from both of its texts. -/
def Form.RoundTrips (form : Form α) : Prop :=
  ∀ a, form.parse (form.write a) = .ok a ∧ form.parse (form.writePretty a) = .ok a

theorem Form.Lawful.roundTrips {form : Form α} (h : form.Lawful)
    (hdepth : ∀ a, (form.value a).depth ≤ maxDepth) : form.RoundTrips :=
  fun a => h.parse_write (hdepth a)

end NodeCatalog.Json
