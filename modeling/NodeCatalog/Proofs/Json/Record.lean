import NodeCatalog.Json.Form
import NodeCatalog.Proofs.Json.Reader

/-!
# Records that are written can be read

A record is written as an object whose members come in the order of its fields, some of them left
out.  Such members fill a record: each changes it by the value that its field takes from it, and a
field that is left out leaves it as it is (`Fills`).  Reading the object gives the record that its
members fill, if the fields have different names (`Reader.takes_record`).
-/

namespace NodeCatalog.Json

variable {α σ : Type}

/-! ### Filling a record -/

/-- The members give fields in their order, leave out none that is required, and turn the first
record into the second. -/
inductive Fills : List (Field σ) → List (String × Value) → σ → σ → Prop where
  | nil (a : σ) : Fills [] [] a a
  | given {f : Field σ} {fs : List (Field σ)} {v : Value} {ms : List (String × Value)}
      {set : σ → σ} {a b : σ} (taken : f.value.Takes v set) (further : Fills fs ms (set a) b) :
      Fills (f :: fs) ((f.name, v) :: ms) a b
  | omitted {f : Field σ} {fs : List (Field σ)} {ms : List (String × Value)} {a b : σ}
      (free : f.required = false) (further : Fills fs ms a b) : Fills (f :: fs) ms a b

namespace Fills

variable {fs : List (Field σ)} {ms : List (String × Value)} {a b : σ} {p : Reader α} {v : Value}
  {x : α} {set : α → σ → σ}

theorem needed {key : String} (h : p.Takes v x) (further : Fills fs ms (set x a) b) :
    Fills (.needed key p set :: fs) ((key, v) :: ms) a b :=
  given (h.map set) further

theorem free {key : String} (h : p.Takes v x) (further : Fills fs ms (set x a) b) :
    Fills (.free key p set :: fs) ((key, v) :: ms) a b :=
  given (h.map set) further

/-- A member may be left out where the record holds already what it would give. -/
theorem givenOrOmitted {key : String} {member : List (String × Value)} {absent : α}
    (h : member = [] ∧ x = absent ∨ ∃ v, member = [(key, v)] ∧ p.Takes v x)
    (habsent : set absent a = a) (further : Fills fs ms (set x a) b) :
    Fills (.free key p set :: fs) (member ++ ms) a b := by
  rcases h with ⟨rfl, rfl⟩ | ⟨v, rfl, htakes⟩
  · rw [habsent] at further
    exact omitted rfl further
  · exact free htakes further

/-- An optional text that is absent is left out; the record must hold none before. -/
theorem optional {key : String} {text : Option String} {set : Option String → σ → σ}
    (hnone : set none a = a) (further : Fills fs ms (set text a) b) :
    Fills (.free key (.optional .text) set :: fs) (optionalMember key text ++ ms) a b := by
  refine givenOrOmitted ?_ hnone further
  cases text with
  | none => exact .inl ⟨rfl, rfl⟩
  | some s => exact .inr ⟨_, rfl, (Reader.takes_text s).optional⟩

/-- An optional text that comes last. -/
theorem optional_last {key : String} {text : Option String} {set : Option String → σ → σ}
    (hnone : set none a = a) :
    Fills [.free key (.optional .text) set] (optionalMember key text) a (set text a) := by
  rw [← List.append_nil (optionalMember key text)]
  exact optional hnone (nil _)

end Fills

/-! ### Keys -/

/-- The text of some members; all but the first come behind a comma. -/
def Value.membersText (l : Layout) (level : Nat) (first : Bool) :
    List (String × Value) → List Char
  | [] => []
  | m :: ms =>
    separator first
      ++ (l.gap (level + 1) ++ (writeMember l (level + 1) m ++ writeMembers l level ms))

theorem Value.membersText_false (l : Layout) (level : Nat) (ms : List (String × Value)) :
    membersText l level false ms = writeMembers l level ms := by
  cases ms with
  | nil => rfl
  | cons m ms => simp only [membersText, separator, writeMembers, List.cons_append,
      List.append_assoc, Bool.false_eq_true, if_false, List.nil_append]

/-- The members of an object are written between braces. -/
theorem Value.exists_write_object (l : Layout) (hl : l.Spaced) (level : Nat)
    (ms : List (String × Value)) :
    ∃ gap, Spacing gap ∧ ∀ rest, (object ms).write l level ++ rest =
      '{' :: (membersText l level true ms ++ (gap ++ '}' :: rest)) := by
  cases ms with
  | nil => exact ⟨[], spacing_nil, fun rest => rfl⟩
  | cons m ms =>
    refine ⟨l.gap level, hl.gap level, fun rest => ?_⟩
    simp only [write, membersText, separator, if_true, List.nil_append, List.cons_append,
      List.append_assoc]

theorem readKey_closed (first : Bool) {gap : List Char} (hgap : Spacing gap) (rest : List Char) :
    readKey first (gap ++ '}' :: rest) = .ok (none, rest) := by
  simp only [readKey, skipSpacing_append_cons hgap (c := '}') rfl]

/-- A key is read behind its separator and spacing. -/
theorem readKey_literal (first : Bool) {gap : List Char} (hgap : Spacing gap) (key : String)
    (rest : List Char) :
    readKey first (separator first ++ (gap ++ (literal key ++ rest))) = .ok (some key, rest) := by
  obtain ⟨r, hr, hread⟩ := readLiteral_literal key rest
  have hquote := skipSpacing_append_cons hgap (c := '"') rfl r
  have hkey : readKey.key ('"' :: r) = .ok (some key, rest) := by
    simp only [readKey.key, hread, Except.map, String.ofList_toList]
  rw [hr]
  cases first with
  | true => simp [readKey, separator, hquote, hkey]
  | false =>
    have hcomma : skipSpacing (separator false ++ (gap ++ '"' :: r)) = ',' :: (gap ++ '"' :: r) :=
      skipSpacing_append_cons spacing_nil (c := ',') rfl _
    simp [readKey, hcomma, hquote, hkey]

theorem expectColon_colon {l : Layout} (hl : l.Spaced) :
    ∃ pad, Spacing pad ∧ ∀ s, expectColon (l.colon ++ s) = .ok (pad ++ s) := by
  obtain ⟨pad, hcolon, hpad⟩ := hl.colon
  refine ⟨pad, hpad, fun s => ?_⟩
  have hskip : skipSpacing (':' :: (pad ++ s)) = ':' :: (pad ++ s) :=
    skipSpacing_append_cons spacing_nil (c := ':') rfl _
  rw [hcolon, List.cons_append]
  simp only [expectColon, hskip]

/-! ### Members -/

/-- The value of a field that was not given before changes the record. -/
theorem readValue_given {fields : List (Field σ)} {given : List String} {f : Field σ}
    (hfound : fields.find? (fun g => g.name == f.name) = some f) (hfresh : f.name ∉ given)
    {v : Value} {set : σ → σ} (h : f.value.Takes v set) {l : Layout} (hl : l.Spaced) (level : Nat)
    (rest : List Char) :
    readValue fields given f.name (l.colon ++ (v.write l level ++ rest)) =
      .ok ((f.name :: given, set), rest) := by
  obtain ⟨pad, hpad, hcolon⟩ := expectColon_colon hl
  simp only [readValue, hfound, if_neg hfresh, hcolon, h l hl level pad rest hpad, Except.map]

/-- An object goes on with a member, or is closed and must hold all required fields then. -/
theorem readMembers_eq_bind (fields : List (Field σ)) (first : Bool) (given : List String) (a : σ)
    (s : List Char) :
    readMembers fields first given a s = readKey first s >>= fun
      | (none, rest) =>
        match fields.find? fun f => f.required && !given.contains f.name with
        | some f => .error (.mismatch (.missingField f.name))
        | none => .ok (a, rest)
      | (some key, rest) => readValue fields given key rest >>= fun q =>
          readMembers fields false q.1.1 (q.1.2 a) q.2 := by
  rw [readMembers]
  split
  · rename_i hkey
    rw [hkey]
    rfl
  · rename_i hkey
    rw [hkey]
    rfl
  · rename_i key rest hkey
    rw [hkey]
    change _ = readValue fields given key rest >>= _
    split
    all_goals
      rename_i hvalue
      rw [hvalue]
      rfl

theorem readMembers_closed {fields : List (Field σ)} {first : Bool} {given : List String} {a : σ}
    {s rest : List Char} (h : readKey first s = .ok (none, rest))
    (hneeded : ∀ f ∈ fields, f.required = false ∨ f.name ∈ given) :
    readMembers fields first given a s = .ok (a, rest) := by
  have hnone : (fields.find? fun f => f.required && !given.contains f.name) = none := by
    rw [List.find?_eq_none]
    intro f hf
    rcases hneeded f hf with hfree | hgiven
    · simp [hfree]
    · simp [hgiven]
  rw [readMembers_eq_bind, h, hnone]
  rfl

theorem readMembers_member {fields : List (Field σ)} {first : Bool} {given given' : List String}
    {a : σ} {set : σ → σ} {key : String} {s t rest : List Char}
    (h : readKey first s = .ok (some key, t))
    (hread : readValue fields given key t = .ok ((given', set), rest)) :
    readMembers fields first given a s = readMembers fields false given' (set a) rest := by
  rw [readMembers_eq_bind, h]
  change readValue fields given key t >>= _ = _
  rw [hread]
  rfl

/-- The members that are written are read up to the brace.  What is left of the fields, `fs`, holds
none that was given before, and all others were given or need not be. -/
theorem readMembers_membersText {l : Layout} (hl : l.Spaced) (level : Nat) {gap : List Char}
    (hgap : Spacing gap) (rest : List Char) {fields fs : List (Field σ)}
    {ms : List (String × Value)} {a b : σ} (h : Fills fs ms a b)
    (hfound : ∀ f ∈ fs, fields.find? (fun g => g.name == f.name) = some f)
    (hnames : (fs.map Field.name).Nodup) (first : Bool) {given : List String}
    (hfresh : ∀ f ∈ fs, f.name ∉ given)
    (hdone : ∀ f ∈ fields, f ∈ fs ∨ f.required = false ∨ f.name ∈ given) :
    readMembers fields first given a (Value.membersText l level first ms ++ (gap ++ '}' :: rest)) =
      .ok (b, rest) := by
  induction h generalizing first given with
  | nil a =>
    refine readMembers_closed (readKey_closed first hgap rest) fun f hf => ?_
    exact (hdone f hf).resolve_left List.not_mem_nil
  | @given f fs v ms set a b taken _ ih =>
    rw [List.map_cons, List.nodup_cons] at hnames
    have hkey := readKey_literal first (hl.gap (level + 1)) f.name
      (l.colon ++ (v.write l (level + 1) ++
        (Value.writeMembers l level ms ++ (gap ++ '}' :: rest))))
    have hvalue := readValue_given (hfound f List.mem_cons_self) (hfresh f List.mem_cons_self) taken
      hl (level + 1) (Value.writeMembers l level ms ++ (gap ++ '}' :: rest))
    simp only [Value.membersText, Value.writeMember, List.append_assoc]
    rw [readMembers_member hkey hvalue, ← Value.membersText_false]
    refine ih (fun g hg => hfound g (List.mem_cons_of_mem f hg)) hnames.2 false (fun g hg => ?_)
      fun g hg => ?_
    · have hne : g.name ≠ f.name := fun heq => hnames.1 (heq ▸ List.mem_map_of_mem hg)
      exact List.not_mem_cons_of_ne_of_not_mem hne (hfresh g (List.mem_cons_of_mem f hg))
    · rcases hdone g hg with hmem | hfree | hgiven
      · rcases List.mem_cons.mp hmem with rfl | hmem
        · exact .inr (.inr List.mem_cons_self)
        · exact .inl hmem
      · exact .inr (.inl hfree)
      · exact .inr (.inr (List.mem_cons_of_mem _ hgiven))
  | @omitted f fs ms a b free _ ih =>
    rw [List.map_cons, List.nodup_cons] at hnames
    refine ih (fun g hg => hfound g (List.mem_cons_of_mem f hg)) hnames.2 first
      (fun g hg => hfresh g (List.mem_cons_of_mem f hg)) fun g hg => ?_
    rcases hdone g hg with hmem | hother
    · rcases List.mem_cons.mp hmem with rfl | hmem
      · exact .inr (.inl free)
      · exact .inl hmem
    · exact .inr hother

/-! ### Records -/

/-- Where names differ, each field is found by its own. -/
theorem find?_name_of_nodup {fields : List (Field σ)} (h : (fields.map Field.name).Nodup) :
    ∀ f ∈ fields, fields.find? (fun g => g.name == f.name) = some f := by
  induction fields with
  | nil => exact fun f hf => absurd hf List.not_mem_nil
  | cons g fs ih =>
    rw [List.map_cons, List.nodup_cons] at h
    intro f hf
    rw [List.find?_cons]
    rcases List.mem_cons.mp hf with rfl | hf
    · rw [beq_self_eq_true]
    · have hne : g.name ≠ f.name := fun heq => h.1 (heq ▸ List.mem_map_of_mem hf)
      rw [beq_false_of_ne hne]
      exact ih h.2 f hf

/-- A record is read from its members, where the names of its fields differ. -/
theorem Reader.takes_record (type : String) {schema : Schema σ} {ms : List (String × Value)} {a : σ}
    (hnames : (schema.fields.map Field.name).Nodup)
    (h : Fills schema.fields ms schema.blank a) :
    (Reader.record type (some schema)).Takes (.object ms) a := by
  intro l hl level gap rest hgap
  obtain ⟨close, hclose, hobject⟩ := Value.exists_write_object l hl level ms
  simp only [Reader.record, hobject, skipSpacing_append_cons hgap (c := '{') rfl]
  exact readMembers_membersText hl level hclose rest h (find?_name_of_nodup hnames) hnames true
    (fun _ _ => List.not_mem_nil) fun f hf => .inl hf

end NodeCatalog.Json
