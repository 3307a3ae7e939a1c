import NodeCatalog.Entry
import NodeCatalog.NodeSet
import NodeCatalog.Proofs.Json.Form
import NodeCatalog.Settings

/-!
# Declarations that are written can be read

Templates, node sets with their members, categories and settings all have lawful forms: the fields
that are left out where they are absent are those that start as absent, and the names of node types
stand for these types.  None of them nests deeper than three levels, so that every one of them is
read back from both of its texts, and a category is read back with a new container in place of the
one that it has (`declarations_read_back`).
-/

namespace NodeCatalog

open Json

/-! ### Node types -/

theorem NodeType.form_takes (depth : Nat) (t : NodeType) :
    (NodeType.form.reader depth).Takes (NodeType.form.value t) t :=
  Reader.takes_choice t.lookup_name _

/-! ### Records that hold no others -/

theorem NodeTemplate.lawful_form : NodeTemplate.form.Lawful := by
  intro depth t hdepth
  refine Reader.takes_record_nested "NodeTemplate" hdepth (fun d => ?_) fun d _ => ?_
  · simp [schema, Field.needed, Field.free]
  · exact .needed (Reader.takes_text t.id) <| .needed (Reader.takes_text t.name) <|
      .free (Reader.takes_text t.after) <| .needed (Reader.takes_text t.factory) <|
      .free (Reader.takes_text t.path) <| .free (NodeType.form_takes d t.type) <|
      .free (Reader.takes_flag t.expert) <| .optional rfl <| .optional_last rfl

theorem MetaTemplate.lawful_form : MetaTemplate.form.Lawful := by
  intro depth t hdepth
  refine Reader.takes_record_nested "MetaNodeTemplate" hdepth (fun d => ?_) fun d _ => ?_
  · simp [schema, Field.needed, Field.free]
  · exact .needed (Reader.takes_text t.id) <| .needed (Reader.takes_text t.name) <|
      .free (Reader.takes_text t.after) <| .free (Reader.takes_text t.path) <|
      .needed (Reader.takes_text t.directory) <| .free (Reader.takes_text t.description) <|
      .free (Reader.takes_flag t.expert) <| .optional rfl <| .optional_last rfl

theorem Category.lawful_form : Category.form.Lawful := by
  intro depth c hdepth
  refine Reader.takes_record_nested "Category" hdepth (fun d => ?_) fun d _ => ?_
  · simp [schema, Field.needed, Field.free]
  · exact .needed (Reader.takes_text c.id) <| .needed (Reader.takes_text c.name) <|
      .free (Reader.takes_text c.after) <| .free (Reader.takes_text c.description) <|
      .free (Reader.takes_text c.path) <| .optional rfl <| .optional_last rfl

theorem Settings.lawful_form : Settings.form.Lawful := by
  intro depth s hdepth
  refine Reader.takes_record_nested "RepositoryConfig" hdepth (fun d => ?_) fun d _ => ?_
  · simp [schema, Field.free]
  · exact .free (Reader.takes_flag s.sortChildren) <| .free (Reader.takes_flag s.warnOnProblems) <|
      .nil _

theorem NodeSet.Member.lawful_form : NodeSet.Member.form.Lawful := by
  intro depth m hdepth
  refine Reader.takes_record_nested "NodeSetEntry" hdepth (fun d => ?_) fun d _ => ?_
  · simp [schema, Field.needed, Field.free]
  · exact .needed (Reader.takes_text m.id) <| .needed (Reader.takes_text m.name) <|
      .needed (Reader.takes_text m.factory) <| .free (Reader.takes_text m.path) <|
      .free (Reader.takes_text m.after) <| .free (NodeType.form_takes d m.type) <| .nil _

/-! ### Node sets -/

theorem NodeSet.lawful_form : NodeSet.form.Lawful := by
  intro depth set hdepth
  have hvalue : NodeSet.form.value set = .object (("id", .text set.id) ::
      (optionalMember "pluginId" set.plugin
        ++ (optionalMember "defaultCategoryIcon" set.categoryIcon
          ++ [("expert", .flag set.expert),
            ("entries", .array (set.members.map Member.form.value))]))) := by
    rw [← List.append_assoc]
    rfl
  rw [hvalue] at hdepth ⊢
  refine Reader.takes_record_nested "NodeSetContribution" hdepth (fun d => ?_) fun d hd => ?_
  · simp [schema, Field.needed, Field.free]
  · have hentries : (Value.array (set.members.map Member.form.value)).depth ≤ d := by
      refine Nat.le_trans (Value.depth_le_membersDepth "entries" ?_) hd
      exact List.mem_cons_of_mem _ <| List.mem_append_right _ <| List.mem_append_right _ <|
        List.mem_cons_of_mem _ List.mem_cons_self
    exact .needed (Reader.takes_text set.id) <| .optional rfl <| .optional rfl <|
      .free (Reader.takes_flag set.expert) <|
      .free (Member.form.takes_list (fun d' _ => Member.lawful_form d') hentries) <| .nil _

/-! ### Depth -/

theorem NodeTemplate.depth_value (t : NodeTemplate) : t.value.depth = 1 := by
  simp [value, NodeType.form, Value.depth, Value.membersDepth, Value.memberDepth,
    Value.membersDepth_append, Value.membersDepth_optionalMember]

theorem MetaTemplate.depth_value (t : MetaTemplate) : t.value.depth = 1 := by
  simp [value, Value.depth, Value.membersDepth, Value.memberDepth, Value.membersDepth_append,
    Value.membersDepth_optionalMember]

theorem Category.depth_value (c : Category) : c.value.depth = 1 := by
  simp [value, Value.depth, Value.membersDepth, Value.memberDepth, Value.membersDepth_append,
    Value.membersDepth_optionalMember]

theorem Settings.depth_value (s : Settings) : s.value.depth = 1 :=
  rfl

theorem NodeSet.Member.depth_value (m : NodeSet.Member) : m.value.depth = 1 :=
  rfl

/-- A node set nests three levels, as it holds a list of objects. -/
theorem NodeSet.depth_value_le (set : NodeSet) : set.value.depth ≤ 3 := by
  have hitems : Value.itemsDepth (set.members.map Member.value) ≤ 1 := by
    refine Value.itemsDepth_le fun v hv => ?_
    obtain ⟨m, -, rfl⟩ := List.mem_map.mp hv
    exact Nat.le_of_eq m.depth_value
  simp only [value, Value.depth, Value.membersDepth, Value.memberDepth, Value.membersDepth_append,
    Value.membersDepth_optionalMember]
  omega

/-! ### Reading back -/

/-- Templates, node sets, their members and settings are read back from their texts.  So is a
category, except that it then sorts and holds nothing, whatever it was and held. -/
theorem declarations_read_back :
    NodeTemplate.form.RoundTrips ∧ MetaTemplate.form.RoundTrips ∧ NodeSet.Member.form.RoundTrips ∧
      NodeSet.form.RoundTrips ∧ Settings.form.RoundTrips ∧
      ∀ (c : Category) (sorted : Bool) (entries : List Entry),
        Entry.readCategory (Entry.category c sorted entries).value.compact =
            .ok (.category c true []) ∧
          Entry.readCategory (Entry.category c sorted entries).value.pretty =
            .ok (.category c true []) := by
  refine ⟨NodeTemplate.lawful_form.roundTrips fun t => ?_,
    MetaTemplate.lawful_form.roundTrips fun t => ?_,
    NodeSet.Member.lawful_form.roundTrips fun m => ?_,
    NodeSet.lawful_form.roundTrips fun set => ?_,
    Settings.lawful_form.roundTrips fun s => ?_, fun c sorted entries => ?_⟩
  · exact Nat.le_trans (Nat.le_of_eq t.depth_value) (by decide)
  · exact Nat.le_trans (Nat.le_of_eq t.depth_value) (by decide)
  · exact Nat.le_trans (Nat.le_of_eq m.depth_value) (by decide)
  · exact Nat.le_trans set.depth_value_le (by decide)
  · exact Nat.le_trans (Nat.le_of_eq s.depth_value) (by decide)
  · have hread := Category.lawful_form.parse_write (a := c) <|
      Nat.le_trans (Nat.le_of_eq c.depth_value) (by decide)
    constructor
    · rw [Entry.readCategory]
      exact congrArg (Except.map _) hread.1
    · rw [Entry.readCategory]
      exact congrArg (Except.map _) hread.2

end NodeCatalog
