import NodeCatalog.Proofs.Json.Form
import NodeCatalog.Snapshot

/-!
# Snapshots that are written can be read

A node of a snapshot is written without its factory, its problem mark and its children where there
is none, where it could be placed and where there are none; these are what a node has before a field
is given.  A node and the list of its children nest one level each, so that the reader of nodes for
some depth reads the children with the one for two levels less, and the law of nodes goes from
depth to depth (`Snapshot.lawful_nodeForm`).

A snapshot is read back from both of its texts if these nest no deeper than texts may
(`Snapshot.read_back_of_depth_le`).
-/

namespace NodeCatalog.Snapshot

open Json

/-! ### Members that may be missing -/

theorem nodeValues_eq_map (ns : List Node) : nodeValues ns = ns.map nodeValue := by
  induction ns with
  | nil => rfl
  | cons n ns ih => rw [nodeValues, ih, List.map_cons]

theorem nodeReader_succ (depth : Nat) :
    nodeReader (depth + 1) =
      .record "SnapshotNode" (some (nodeSchema (.list (nested depth nodeReader)))) := by
  cases depth <;> rfl

/-- The mark is left out where there is no problem. -/
theorem problemMember_cases (problem : Bool) :
    problemMember problem = [] ∧ problem = false ∨
      ∃ v, problemMember problem = [("problem", v)] ∧ Reader.flag.Takes v problem := by
  cases problem with
  | false => exact .inl ⟨rfl, rfl⟩
  | true => exact .inr ⟨_, rfl, Reader.takes_flag true⟩

/-- The children are left out where there are none. -/
theorem childrenMember_cases (ns : List Node) :
    childrenMember (nodeValues ns) = [] ∧ ns = [] ∨
      childrenMember (nodeValues ns) = [("children", .array (nodeValues ns))] := by
  cases ns with
  | nil => exact .inl ⟨rfl, rfl⟩
  | cons n ns => exact .inr rfl

/-! ### Nodes -/

/-- The readers for nodes take back the nodes that they have room for. -/
theorem lawful_nodeForm : nodeForm.Lawful := by
  intro depth
  -- the children are read with the reader for two levels less
  induction depth using Nat.strongRecOn with
  | ind depth ih =>
    rintro ⟨id, name, kind, factory, problem, children⟩ hdepth
    have hvalue : nodeForm.value ⟨id, name, kind, factory, problem, children⟩ =
        .object (("id", .text id) :: ("name", .text name) :: ("kind", .text kind) ::
          (optionalMember "factory" factory
            ++ (problemMember problem ++ (childrenMember (nodeValues children) ++ [])))) := by
      rw [List.append_nil, ← List.append_assoc]
      rfl
    rw [hvalue] at hdepth ⊢
    obtain ⟨d, rfl⟩ := Nat.exists_eq_add_one.mpr (Nat.lt_of_lt_of_le (Nat.succ_pos _) hdepth)
    have hchildren : childrenMember (nodeValues children) = [] ∧ children = [] ∨
        ∃ v, childrenMember (nodeValues children) = [("children", v)] ∧
          (Reader.list (nested d nodeReader)).Takes v children := by
      refine (childrenMember_cases children).imp_right fun hgiven => ⟨_, hgiven, ?_⟩
      rw [hgiven, Value.depth] at hdepth
      have hroom : (Value.array (nodeValues children)).depth ≤ d := by
        refine Nat.le_trans (Value.depth_le_membersDepth "children" ?_)
          (Nat.le_of_succ_le_succ hdepth)
        simp
      rw [nodeValues_eq_map] at hroom ⊢
      exact nodeForm.takes_list (fun d' hd' => ih d' (by omega)) hroom
    rw [show nodeForm.reader (d + 1) = _ from nodeReader_succ d]
    refine Reader.takes_record "SnapshotNode" (by simp [nodeSchema, Field.needed, Field.free]) ?_
    exact .needed (Reader.takes_text id) <| .needed (Reader.takes_text name) <|
      .needed (Reader.takes_text kind) <| .optional rfl <|
      .givenOrOmitted (problemMember_cases problem) rfl <|
      .givenOrOmitted hchildren rfl <| .nil _

/-! ### Snapshots -/

theorem lawful_form : form.Lawful := by
  rintro depth ⟨children⟩ hdepth
  refine Reader.takes_record_nested "TreeSnapshot" hdepth (fun d => ?_) fun d hd => ?_
  · simp [schema, Field.needed]
  · have hroom : (Value.array (nodeValues children)).depth ≤ d :=
      Nat.le_trans (Value.depth_le_membersDepth "children" List.mem_cons_self) hd
    rw [nodeValues_eq_map] at hroom ⊢
    have hchildren := nodeForm.takes_list (fun d' _ => lawful_nodeForm d') hroom
    exact .needed hchildren <| .nil _

/-- A snapshot that nests at most 127 arrays and objects is read back from both of its texts. -/
theorem read_back_of_depth_le (s : Snapshot) (h : s.value.depth ≤ 127) :
    form.parse (form.write s) = .ok s ∧ form.parse (form.writePretty s) = .ok s :=
  lawful_form.parse_write h

/-- A category that could not be placed, with a node below it whose name needs escapes. -/
theorem read_back_of_depth_le_escapes :
    let s : Snapshot := ⟨[
      { id := "io", name := "", kind := "category", problem := true,
        children := [
          { id := "r", name := "a\"\\\x00\n\x7f\u2028", kind := "node", factory := some "" }] },
      { id := "m", name := "b", kind := "meta_node" }]⟩
    s.value.depth = 5 ∧ form.parse (form.write s) = .ok s ∧
      form.parse (form.writePretty s) = .ok s :=
  ⟨by decide, read_back_of_depth_le _ (by decide)⟩

end NodeCatalog.Snapshot
