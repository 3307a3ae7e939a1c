import NodeCatalog.Json.Skip

/-!
# Reading records

A record is read from an object, whose keys may come in any order, or from an array of its fields in
their order.  Keys that name no field are skipped; a field given twice is a failure at its second
key, and a required field that is not given is one at the end.  Lists and choices among names
complete the values that the fields of records have.

Arrays and objects may stand inside one another to a limited depth.  What may stand inside the
brackets of a reader is therefore optional: nothing may, where the depth is used up.
-/

namespace NodeCatalog.Json

variable {α σ : Type}

/-! ### Items of an array -/

/-- What stands at a place between the items of an array. -/
inductive Turn where
  /-- The closing bracket, and what follows it. -/
  | closed (rest : List Char)
  /-- A further item. -/
  | item (s : List Char)

/-- What stands after a text is looked at. -/
def Turn.rest : Turn → List Char
  | closed rest => rest
  | item s => s

/-- Looks for the next item of an array. -/
def nextItem (first : Bool) (s : List Char) : Except Failure Turn :=
  match skipSpacing s with
  | [] => .error .unfinished
  | ']' :: rest => .ok (.closed rest)
  | c :: rest =>
    if first then .ok (.item (c :: rest))
    else if c = ',' then
      match skipSpacing rest with
      | [] => .error .unfinished
      | ']' :: _ => .error .malformed
      | d :: t => .ok (.item (d :: t))
    else .error .malformed

theorem length_le_of_nextItem {first : Bool} {s : List Char} {t : Turn}
    (h : nextItem first s = .ok t) : t.rest.length ≤ s.length := by
  have hs := length_skipSpacing_le s
  unfold nextItem at h
  split at h
  · cases h
  · rename_i hq
    rw [hq, List.length_cons] at hs
    simp only [Except.ok.injEq] at h
    rw [← h, Turn.rest]
    omega
  · rename_i c rest _ hq
    rw [hq] at hs
    have hr := length_skipSpacing_le rest
    split at h
    · simp only [Except.ok.injEq] at h
      rw [← h, Turn.rest]
      exact hs
    · split at h
      · split at h
        · cases h
        · cases h
        · rename_i hp
          rw [hp] at hr
          simp only [Except.ok.injEq] at h
          rw [← h, Turn.rest]
          simp only [List.length_cons] at hs hr ⊢
          omega
      · cases h

/-- Puts an item before those that were read. -/
def consItem (a : α) (p : List α × List Char) : List α × List Char :=
  (a :: p.1, p.2)

/-- Reads the items of an array to its closing bracket. -/
def readItems (p : Reader α) (first : Bool) (s : List Char) :
    Except Failure (List α × List Char) :=
  match _hn : nextItem first s with
  | .error e => .error e
  | .ok (.closed rest) => .ok ([], rest)
  | .ok (.item t) =>
    match _hp : p.read t with
    | .error e => .error e
    | .ok (a, rest) => (readItems p false rest).map (consItem a)
termination_by s.length
decreasing_by
  have hn := length_le_of_nextItem _hn
  have hp := p.shorter _hp
  rw [Turn.rest] at hn
  omega

theorem length_le_of_readItems {p : Reader α} {first : Bool} {s r : List Char} {x : List α}
    (h : readItems p first s = .ok (x, r)) : r.length ≤ s.length := by
  fun_induction readItems p first s generalizing x with
  | case1 => cases h
  | case2 first s rest hn =>
    simp only [Except.ok.injEq, Prod.mk.injEq] at h
    have := length_le_of_nextItem hn
    rw [Turn.rest, h.2] at this
    exact this
  | case3 => cases h
  | case4 first s t hn a rest hp ih =>
    have hn := length_le_of_nextItem hn
    have hp := p.shorter hp
    rw [Turn.rest] at hn
    cases hi : readItems p false rest with
    | error e => rw [hi] at h; cases h
    | ok q =>
      rw [hi] at h
      simp only [Except.map, consItem, Except.ok.injEq, Prod.mk.injEq] at h
      have := ih (x := q.1) (by rw [hi, ← h.2])
      omega

/-- Reads a list. -/
def Reader.list (inside : Option (Reader α)) : Reader (List α) where
  read s :=
    match skipSpacing s with
    | [] => .error .unfinished
    | '[' :: rest =>
      match inside with
      | none => .error .malformed
      | some p => readItems p true rest
    | t => .error (wrongType "a sequence" t)
  shorter := by
    intro s r a h
    have hs := length_skipSpacing_le s
    split at h
    · cases h
    · rename_i hq
      rw [hq, List.length_cons] at hs
      split at h
      · cases h
      · have := length_le_of_readItems h
        omega
    · cases h

/-! ### Fields -/

/-- A field of a record. -/
structure Field (σ : Type) where
  /-- Its key in an object. -/
  name : String
  /-- Whether it must be given. -/
  required : Bool
  /-- Reads its value and says how the record changes. -/
  value : Reader (σ → σ)

/-- The fields of a record in their order. -/
structure Schema (σ : Type) where
  /-- The record as it is before a field is given. -/
  blank : σ
  fields : List (Field σ)

/-- A field that must be given. -/
def Field.needed (name : String) (p : Reader α) (set : α → σ → σ) : Field σ :=
  ⟨name, true, p.map set⟩

/-- A field that may be left out. -/
def Field.free (name : String) (p : Reader α) (set : α → σ → σ) : Field σ :=
  ⟨name, false, p.map set⟩

/-- How messages call a record of some type. -/
def recordName (type : String) : String :=
  "struct " ++ type

/-- How messages call a record of some type and size. -/
def recordSize (type : String) (size : Nat) : String :=
  recordName type ++ " with " ++ String.ofList (Decimal.digitsOf size)
    ++ (if size = 1 then " element" else " elements")

/-! ### Records as arrays -/

/-- The number of the first required field, counted from `index`. -/
def firstNeeded (index : Nat) : List (Field σ) → Option Nat
  | [] => none
  | f :: fs => if f.required then some index else firstNeeded (index + 1) fs

/-- Expects the closing bracket of an array whose fields are all given. -/
def expectClosed (s : List Char) : Except Failure (List Char) :=
  match skipSpacing s with
  | [] => .error .unfinished
  | ']' :: rest => .ok rest
  | _ => .error .malformed

/-- Reads fields by position into a record, from the field with number `index` on. -/
def readPositions (wanted : String) (first : Bool) (index : Nat) (acc : σ)
    (fields : List (Field σ)) (s : List Char) : Except Failure (σ × List Char) :=
  match fields with
  | [] => (expectClosed s).map fun rest => (acc, rest)
  | f :: fs =>
    match nextItem first s with
    | .error e => .error e
    | .ok (.closed rest) =>
      match firstNeeded index (f :: fs) with
      | some missing => .error (.mismatch (.tooShort missing wanted))
      | none => .ok (acc, rest)
    | .ok (.item t) =>
      match f.value.read t with
      | .error e => .error e
      | .ok (set, rest) => readPositions wanted false (index + 1) (set acc) fs rest

theorem length_le_of_readPositions {wanted : String} {first : Bool} {index : Nat} {acc a : σ}
    {fields : List (Field σ)} {s r : List Char}
    (h : readPositions wanted first index acc fields s = .ok (a, r)) : r.length ≤ s.length := by
  fun_induction readPositions wanted first index acc fields s with
  | case1 first index acc s =>
    have hs := length_skipSpacing_le s
    unfold expectClosed at h
    split at h
    · cases h
    · rename_i hq
      rw [hq, List.length_cons] at hs
      simp only [Except.map, Except.ok.injEq, Prod.mk.injEq] at h
      rw [← h.2]
      omega
    · cases h
  | case2 => cases h
  | case3 => cases h
  | case4 first index acc s f fs rest hn =>
    simp only [Except.ok.injEq, Prod.mk.injEq] at h
    have := length_le_of_nextItem hn
    rw [Turn.rest, h.2] at this
    exact this
  | case5 => cases h
  | case6 first index acc s f fs t hn set rest hp ih =>
    have hn := length_le_of_nextItem hn
    have hp := f.value.shorter hp
    rw [Turn.rest] at hn
    have := ih h
    omega

/-! ### Records as objects -/

/-- Reads the next key of an object; there is none where the object is closed. -/
def readKey (first : Bool) (s : List Char) : Except Failure (Option String × List Char) :=
  match skipSpacing s with
  | [] => .error .unfinished
  | '}' :: rest => .ok (none, rest)
  | c :: rest =>
    if first then key (c :: rest)
    else if c = ',' then key (skipSpacing rest)
    else .error .malformed
where
  /-- Reads a key that must come. -/
  key (s : List Char) : Except Failure (Option String × List Char) :=
    match s with
    | [] => .error .unfinished
    | '"' :: rest => (readLiteral rest).map fun p => (some (String.ofList p.1), p.2)
    | _ => .error .malformed

theorem shorter_of_readKey {first : Bool} {s r : List Char} {k : Option String}
    (h : readKey first s = .ok (k, r)) : r.length < s.length := by
  have key : ∀ t : List Char, readKey.key t = .ok (k, r) → r.length < t.length := by
    intro t ht
    unfold readKey.key at ht
    split at ht
    · cases ht
    · rename_i rest
      cases hl : readLiteral rest with
      | error e => rw [hl] at ht; cases ht
      | ok p =>
        rw [hl] at ht
        simp only [Except.map, Except.ok.injEq, Prod.mk.injEq] at ht
        have := shorter_of_readLiteral (t := p.1) (r := p.2) hl
        simp only [List.length_cons, ← ht.2]
        omega
    · cases ht
  have hs := length_skipSpacing_le s
  unfold readKey at h
  split at h
  · cases h
  · rename_i hq
    rw [hq, List.length_cons] at hs
    simp only [Except.ok.injEq, Prod.mk.injEq] at h
    rw [← h.2]
    omega
  · rename_i c rest _ hq
    rw [hq] at hs
    have hr := length_skipSpacing_le rest
    split at h
    · have := key _ h
      omega
    · split at h
      · have := key _ h
        simp only [List.length_cons] at hs
        omega
      · cases h

/-- Reads the value of a key, which is skipped if it names no field: how the record changes, and the
names of the fields that are given then. -/
def readValue (fields : List (Field σ)) (given : List String) (key : String) (s : List Char) :
    Except Failure ((List String × (σ → σ)) × List Char) :=
  match fields.find? fun f => f.name == key with
  | none =>
    match expectColon s with
    | .error e => .error e
    | .ok rest => (Reader.skip.read rest).map fun q => ((given, id), q.2)
  | some f =>
    -- the key alone decides, before its colon is looked at
    if key ∈ given then .error (.mismatch (.repeatedField key))
    else
      match expectColon s with
      | .error e => .error e
      | .ok rest => (f.value.read rest).map fun q => ((key :: given, q.1), q.2)

theorem shorter_of_readValue {fields : List (Field σ)} {given : List String} {key : String}
    {s r : List Char} {u : List String × (σ → σ)}
    (h : readValue fields given key s = .ok (u, r)) : r.length < s.length := by
  unfold readValue at h
  split at h
  · split at h
    · cases h
    · rename_i rest hc
      have hc := shorter_of_expectColon hc
      cases hp : Reader.skip.read rest with
      | error e => rw [hp] at h; cases h
      | ok q =>
        rw [hp] at h
        simp only [Except.map, Except.ok.injEq, Prod.mk.injEq] at h
        have := Reader.skip.shorter (a := q.1) (r := q.2) hp
        rw [← h.2]
        omega
  · rename_i f _
    split at h
    · cases h
    · split at h
      · cases h
      · rename_i rest hc
        have hc := shorter_of_expectColon hc
        cases hp : f.value.read rest with
        | error e => rw [hp] at h; cases h
        | ok q =>
          rw [hp] at h
          simp only [Except.map, Except.ok.injEq, Prod.mk.injEq] at h
          have := f.value.shorter (a := q.1) (r := q.2) hp
          rw [← h.2]
          omega

/-- Reads the members of an object into a record, to the closing brace; `given` are the names of the
fields that were given before. -/
def readMembers (fields : List (Field σ)) (first : Bool) (given : List String) (acc : σ)
    (s : List Char) : Except Failure (σ × List Char) :=
  match _hk : readKey first s with
  | .error e => .error e
  | .ok (none, rest) =>
    match fields.find? fun f => f.required && !given.contains f.name with
    | some f => .error (.mismatch (.missingField f.name))
    | none => .ok (acc, rest)
  | .ok (some key, rest) =>
    match _hv : readValue fields given key rest with
    | .error e => .error e
    | .ok ((given, set), rest) => readMembers fields false given (set acc) rest
termination_by s.length
decreasing_by
  have := shorter_of_readKey _hk
  have := shorter_of_readValue _hv
  omega

theorem shorter_of_readMembers {fields : List (Field σ)} {first : Bool} {given : List String}
    {acc a : σ} {s r : List Char} (h : readMembers fields first given acc s = .ok (a, r)) :
    r.length < s.length := by
  fun_induction readMembers fields first given acc s with
  | case1 => cases h
  | case2 => cases h
  | case3 first given acc s rest hk =>
    simp only [Except.ok.injEq, Prod.mk.injEq] at h
    rw [← h.2]
    exact shorter_of_readKey hk
  | case4 => cases h
  | case5 first given acc s key rest hk given' set rest' hv ih =>
    have := shorter_of_readKey hk
    have := shorter_of_readValue hv
    have := ih h
    omega

/-- Reads a record of some type. -/
def Reader.record (type : String) (inside : Option (Schema σ)) : Reader σ where
  read s :=
    match skipSpacing s with
    | [] => .error .unfinished
    | '[' :: rest =>
      match inside with
      | none => .error .malformed
      | some schema =>
        readPositions (recordSize type schema.fields.length) true 0 schema.blank schema.fields rest
    | '{' :: rest =>
      match inside with
      | none => .error .malformed
      | some schema => readMembers schema.fields true [] schema.blank rest
    | t => .error (wrongType (recordName type) t)
  shorter := by
    intro s r a h
    have hs := length_skipSpacing_le s
    split at h
    · cases h
    · rename_i hq
      rw [hq, List.length_cons] at hs
      split at h
      · cases h
      · have := length_le_of_readPositions h
        omega
    · rename_i hq
      rw [hq, List.length_cons] at hs
      split at h
      · cases h
      · have := shorter_of_readMembers h
        omega
    · cases h

/-! ### Choices -/

/-- The choice that a name stands for. -/
def choose (choices : List (String × α)) (name : String) : Except Failure α :=
  match choices.lookup name with
  | some a => .ok a
  | none => .error (.mismatch (.unknownVariant name (choices.map Prod.fst)))

/-- Expects `null`, after spacing. -/
def expectNull (s : List Char) : Except Failure (List Char) :=
  match skipSpacing s with
  | [] => .error .unfinished
  | 'n' :: rest => expect ['u', 'l', 'l'] rest
  | t => .error (wrongType "unit" t)

/-- Expects the closing brace of an object, after spacing. -/
def expectBrace (s : List Char) : Except Failure (List Char) :=
  match skipSpacing s with
  | [] => .error .unfinished
  | '}' :: rest => .ok rest
  | _ => .error .malformed

/-- Reads the name of a choice. -/
def readChoice (choices : List (String × α)) (s : List Char) :
    Except Failure (α × List Char) := do
  let (name, rest) ← readLiteral s
  let a ← choose choices (String.ofList name)
  return (a, rest)

/-- Reads an object with one member, whose key is the name of a choice and whose value is null.
Anything but a literal in the place of the key is malformed, and is not looked into. -/
def readChoiceObject (choices : List (String × α)) (s : List Char) :
    Except Failure (α × List Char) :=
  match skipSpacing s with
  | [] => .error .unfinished
  | '"' :: rest => do
    let (a, rest) ← readChoice choices rest
    let rest ← expectColon rest
    let rest ← expectNull rest
    let rest ← expectBrace rest
    return (a, rest)
  | _ => .error .malformed

theorem shorter_of_readChoice {choices : List (String × α)} {s r : List Char} {a : α}
    (h : readChoice choices s = .ok (a, r)) : r.length < s.length := by
  unfold readChoice at h
  cases hl : readLiteral s with
  | error e => rw [hl] at h; cases h
  | ok p =>
    rw [hl] at h
    cases hc : choose choices (String.ofList p.1) with
    | error e => simp only [bind, Except.bind, hc] at h; cases h
    | ok b =>
      simp only [bind, Except.bind, hc, pure, Except.pure, Except.ok.injEq, Prod.mk.injEq] at h
      rw [← h.2]
      exact shorter_of_readLiteral (t := p.1) hl

theorem shorter_of_readChoiceObject {choices : List (String × α)} {s r : List Char} {a : α}
    (h : readChoiceObject choices s = .ok (a, r)) : r.length < s.length := by
  have hs := length_skipSpacing_le s
  unfold readChoiceObject at h
  split at h
  · cases h
  · rename_i rest hq
    rw [hq, List.length_cons] at hs
    cases h1 : readChoice choices rest with
    | error e => simp only [bind, Except.bind, h1] at h; cases h
    | ok p =>
      have l1 := shorter_of_readChoice (a := p.1) (r := p.2) h1
      simp only [bind, Except.bind, h1] at h
      cases h2 : expectColon p.2 with
      | error e => rw [h2] at h; cases h
      | ok r2 =>
        have l2 := shorter_of_expectColon h2
        simp only [h2] at h
        cases h3 : expectNull r2 with
        | error e => rw [h3] at h; cases h
        | ok r3 =>
          have l3 : r3.length ≤ r2.length := by
            have hs := length_skipSpacing_le r2
            unfold expectNull at h3
            split at h3
            · cases h3
            · rename_i hq
              rw [hq, List.length_cons] at hs
              have := length_le_of_expect h3
              omega
            · cases h3
          simp only [h3] at h
          cases h4 : expectBrace r3 with
          | error e => rw [h4] at h; cases h
          | ok r4 =>
            have l4 : r4.length ≤ r3.length := by
              have hs := length_skipSpacing_le r3
              unfold expectBrace at h4
              split at h4
              · cases h4
              · rename_i hq
                rw [hq, List.length_cons] at hs
                simp only [Except.ok.injEq] at h4
                rw [← h4]
                omega
              · cases h4
            simp only [h4, pure, Except.pure, Except.ok.injEq, Prod.mk.injEq] at h
            rw [← h.2]
            omega
  · cases h

/-- Reads one of some named choices; `nests` says whether an object may stand here. -/
def Reader.choice (choices : List (String × α)) (nests : Bool) : Reader α where
  read s :=
    match skipSpacing s with
    | [] => .error .unfinished
    | '"' :: rest => readChoice choices rest
    | '{' :: rest => if nests then readChoiceObject choices rest else .error .malformed
    | _ => .error .malformed
  shorter := by
    intro s r a h
    have hs := length_skipSpacing_le s
    split at h
    · cases h
    · rename_i hq
      rw [hq, List.length_cons] at hs
      have := shorter_of_readChoice h
      omega
    · rename_i hq
      rw [hq, List.length_cons] at hs
      split at h
      · have := shorter_of_readChoiceObject h
        omega
      · cases h
    · cases h

/-! ### Whole texts -/

/-- How deep arrays and objects that are read may nest. -/
def maxDepth : Nat := 127

/-- What stands inside brackets where `depth` more levels may open. -/
def nested (depth : Nat) (inside : Nat → α) : Option α :=
  match depth with
  | 0 => none
  | depth + 1 => some (inside depth)

/-- Reads a whole text with a reader for a value that may nest to some depth. -/
def parse (p : Nat → Reader α) (text : String) : Except Failure α :=
  match (p maxDepth).read text.toList with
  | .error e => .error e
  | .ok (a, rest) => if (skipSpacing rest).isEmpty then .ok a else .error .malformed

end NodeCatalog.Json
