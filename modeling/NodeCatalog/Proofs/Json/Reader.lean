import Mathlib.Data.List.Forall2
import NodeCatalog.Json.Record
import NodeCatalog.Proofs.Json.Literal

/-!
# Readers that take what is written

A value may be written in any layout that puts nothing but spacing where a line may break and
behind a colon, as the compact and the pretty one do (`Layout.spaced_compact`,
`Layout.spaced_pretty`).  A reader takes a thing from a value if it reads this thing from every such
text of the value, whatever spacing comes before it and whatever text follows
(`Reader.Takes`).  So a reader of one value can be used where the value is part of another.

The readers of texts, flags, optional values, choices and lists take what they should
(`takes_text`, `takes_flag`, `Takes.optional`, `takes_choice`, `takes_list`).
-/

namespace NodeCatalog.Json

/-! ### Spacing -/

/-- A text of spacing only. -/
def Spacing (s : List Char) : Prop :=
  ∀ c ∈ s, isSpacing c = true

theorem spacing_nil : Spacing [] :=
  fun _ hc => absurd hc List.not_mem_nil

/-- Spacing is skipped up to the first other character. -/
theorem skipSpacing_append_cons {gap : List Char} (hgap : Spacing gap) {c : Char}
    (hc : isSpacing c = false) (s : List Char) : skipSpacing (gap ++ c :: s) = c :: s := by
  rw [skipSpacing, List.dropWhile_append_of_pos hgap, List.dropWhile_cons, hc]
  rfl

namespace Layout

/-- Nothing but spacing stands where a line may break and behind a colon. -/
structure Spaced (l : Layout) : Prop where
  gap : ∀ level, Spacing (l.gap level)
  colon : ∃ pad, l.colon = ':' :: pad ∧ Spacing pad

theorem spaced_compact : compact.Spaced :=
  ⟨fun _ => spacing_nil, [], rfl, spacing_nil⟩

theorem spaced_pretty : pretty.Spaced := by
  refine ⟨fun level c hc => ?_, [' '], rfl, fun c hc => ?_⟩
  · rcases List.mem_cons.mp hc with rfl | hc
    · rfl
    · rw [(List.mem_replicate.mp hc).2]
      rfl
  · rw [List.mem_singleton.mp hc]
    rfl

end Layout

/-! ### How values start -/

/-- A value starts neither with spacing nor with the first letter of `null`, and not like the end of
a list. -/
theorem Value.exists_write_eq_cons (l : Layout) (level : Nat) (v : Value) :
    ∃ c s, v.write l level = c :: s ∧ isSpacing c = false ∧ c ≠ 'n' ∧ c ≠ ']' := by
  cases v with
  | flag b => cases b <;> exact ⟨_, _, rfl, rfl, by decide, by decide⟩
  | text s => exact ⟨_, _, rfl, rfl, by decide, by decide⟩
  | array items =>
    cases items <;> exact ⟨_, _, by rw [write] <;> rfl, rfl, by decide, by decide⟩
  | object members =>
    cases members <;> exact ⟨_, _, by rw [write] <;> rfl, rfl, by decide, by decide⟩

/-! ### Taking -/

namespace Reader

variable {α β : Type}

/-- From every text of the value, behind any spacing and before any other text, the reader reads the
thing and nothing more. -/
def Takes (p : Reader α) (v : Value) (a : α) : Prop :=
  ∀ (l : Layout), l.Spaced → ∀ level gap rest, Spacing gap →
    p.read (gap ++ (v.write l level ++ rest)) = .ok (a, rest)

theorem Takes.map {p : Reader α} {v : Value} {a : α} (h : p.Takes v a) (f : α → β) :
    (p.map f).Takes v (f a) := by
  intro l hl level gap rest hgap
  simp only [Reader.map, h l hl level gap rest hgap, Except.map]

theorem takes_text (s : String) : text.Takes (.text s) s := by
  intro l _ level gap rest hgap
  obtain ⟨r, hr, hread⟩ := readLiteral_literal s rest
  simp only [text, Value.write, hr, skipSpacing_append_cons hgap (c := '"') rfl, hread, Except.map,
    String.ofList_toList]

theorem takes_flag (b : Bool) : flag.Takes (.flag b) b := by
  intro l _ level gap rest hgap
  cases b with
  | true =>
    simp only [flag, Value.write, flagWord, List.cons_append,
      skipSpacing_append_cons hgap (c := 't') rfl]
    rfl
  | false =>
    simp only [flag, Value.write, flagWord, List.cons_append,
      skipSpacing_append_cons hgap (c := 'f') rfl]
    rfl

/-- An optional value is read like one that must be given; no value looks like `null`. -/
theorem Takes.optional {p : Reader α} {v : Value} {a : α} (h : p.Takes v a) :
    (optional p).Takes v (some a) := by
  intro l hl level gap rest hgap
  have hread := h l hl level gap rest hgap
  obtain ⟨c, s, hv, hc, hn, -⟩ := v.exists_write_eq_cons l level
  rw [hv, List.cons_append] at hread ⊢
  simp only [Reader.optional, skipSpacing_append_cons hgap hc]
  split
  · rename_i heq
    exact absurd (List.cons.inj heq).1 hn
  · rw [hread]
    rfl

/-- The name of a choice is read as this choice. -/
theorem takes_choice {choices : List (String × α)} {name : String} {a : α}
    (h : choices.lookup name = some a) (nests : Bool) :
    (choice choices nests).Takes (.text name) a := by
  intro l _ level gap rest hgap
  obtain ⟨r, hr, hread⟩ := readLiteral_literal name rest
  have hchoice : readChoice choices r = .ok (a, rest) := by
    rw [readChoice, hread]
    simp only [bind, Except.bind, choose, String.ofList_toList, h]
    rfl
  simp only [choice, Value.write, hr, skipSpacing_append_cons hgap (c := '"') rfl, hchoice]

/-! ### Lists -/

end Reader

/-- What comes before an item or a member besides spacing: a comma, unless it is the first. -/
def separator (first : Bool) : List Char :=
  if first then [] else [',']

/-- The text of some items; all but the first come behind a comma. -/
def Value.itemsText (l : Layout) (level : Nat) (first : Bool) : List Value → List Char
  | [] => []
  | v :: vs =>
    separator first ++ (l.gap (level + 1) ++ (v.write l (level + 1) ++ writeItems l level vs))

theorem Value.itemsText_false (l : Layout) (level : Nat) (vs : List Value) :
    itemsText l level false vs = writeItems l level vs := by
  cases vs with
  | nil => rfl
  | cons v vs => simp only [itemsText, separator, writeItems, List.cons_append, List.append_assoc,
      Bool.false_eq_true, if_false, List.nil_append]

/-- A list is written between brackets. -/
theorem Value.exists_write_array (l : Layout) (hl : l.Spaced) (level : Nat) (vs : List Value) :
    ∃ gap, Spacing gap ∧ ∀ rest, (array vs).write l level ++ rest =
      '[' :: (itemsText l level true vs ++ (gap ++ ']' :: rest)) := by
  cases vs with
  | nil => exact ⟨[], spacing_nil, fun rest => rfl⟩
  | cons v vs =>
    refine ⟨l.gap level, hl.gap level, fun rest => ?_⟩
    simp only [write, itemsText, separator, if_true, List.nil_append, List.cons_append,
      List.append_assoc]

section Items

variable {α : Type}

theorem nextItem_closed (first : Bool) {gap : List Char} (hgap : Spacing gap) (rest : List Char) :
    nextItem first (gap ++ ']' :: rest) = .ok (.closed rest) := by
  simp only [nextItem, skipSpacing_append_cons hgap (c := ']') rfl]

theorem nextItem_first {c : Char} {s t : List Char} (h : skipSpacing s = c :: t)
    (hclose : c ≠ ']') : nextItem true s = .ok (.item (c :: t)) := by
  simp [nextItem, h]

theorem nextItem_further {c : Char} {s t r : List Char} (h : skipSpacing s = ',' :: t)
    (ht : skipSpacing t = c :: r) (hclose : c ≠ ']') :
    nextItem false s = .ok (.item (c :: r)) := by
  simp [nextItem, h, ht]

/-- An item is found behind its separator and spacing. -/
theorem nextItem_item (first : Bool) {gap : List Char} (hgap : Spacing gap) {c : Char}
    (hc : isSpacing c = false) (hclose : c ≠ ']') (s : List Char) :
    nextItem first (separator first ++ (gap ++ c :: s)) = .ok (.item (c :: s)) := by
  cases first with
  | true => exact nextItem_first (skipSpacing_append_cons hgap hc s) hclose
  | false =>
    exact nextItem_further (skipSpacing_append_cons spacing_nil (c := ',') rfl (gap ++ c :: s))
      (skipSpacing_append_cons hgap hc s) hclose

/-- A list goes on with an item, or is closed. -/
theorem readItems_eq_bind (p : Reader α) (first : Bool) (s : List Char) :
    readItems p first s = nextItem first s >>= fun
      | .closed rest => .ok ([], rest)
      | .item t => p.read t >>= fun q => (readItems p false q.2).map (consItem q.1) := by
  rw [readItems]
  split
  · rename_i hnext
    rw [hnext]
    rfl
  · rename_i hnext
    rw [hnext]
    rfl
  · rename_i t hnext
    rw [hnext]
    change _ = p.read t >>= _
    split
    all_goals
      rename_i hread
      rw [hread]
      rfl

theorem readItems_closed {p : Reader α} {first : Bool} {s rest : List Char}
    (h : nextItem first s = .ok (.closed rest)) : readItems p first s = .ok ([], rest) := by
  rw [readItems_eq_bind, h]
  rfl

theorem readItems_item {p : Reader α} {first : Bool} {s t rest : List Char} {a : α}
    (h : nextItem first s = .ok (.item t)) (hread : p.read t = .ok (a, rest)) :
    readItems p first s = (readItems p false rest).map (consItem a) := by
  rw [readItems_eq_bind, h]
  change p.read t >>= _ = _
  rw [hread]
  rfl

/-- The items that are written are read up to the bracket. -/
theorem readItems_itemsText {p : Reader α} {l : Layout} (hl : l.Spaced) (level : Nat)
    {gap : List Char} (hgap : Spacing gap) (rest : List Char) {vs : List Value} {as : List α}
    (h : List.Forall₂ p.Takes vs as) (first : Bool) :
    readItems p first (Value.itemsText l level first vs ++ (gap ++ ']' :: rest)) =
      .ok (as, rest) := by
  induction h generalizing first with
  | nil => exact readItems_closed (nextItem_closed first hgap rest)
  | @cons v a vs as ha _ ih =>
    have hread := ha l hl (level + 1) [] (Value.writeItems l level vs ++ (gap ++ ']' :: rest))
      spacing_nil
    obtain ⟨c, s, hv, hc, -, hclose⟩ := v.exists_write_eq_cons l (level + 1)
    rw [List.nil_append, hv, List.cons_append] at hread
    have hnext := nextItem_item first (hl.gap (level + 1)) hc hclose
      (s ++ (Value.writeItems l level vs ++ (gap ++ ']' :: rest)))
    rw [Value.itemsText, hv]
    simp only [List.append_assoc, List.cons_append]
    rw [readItems_item hnext hread, ← Value.itemsText_false, ih false]
    rfl

/-- A list of values is read as the list of what is taken from them. -/
theorem Reader.takes_list {p : Reader α} {vs : List Value} {as : List α}
    (h : List.Forall₂ p.Takes vs as) : (Reader.list (some p)).Takes (.array vs) as := by
  intro l hl level gap rest hgap
  obtain ⟨close, hclose, harray⟩ := Value.exists_write_array l hl level vs
  simp only [Reader.list, harray, skipSpacing_append_cons hgap (c := '[') rfl]
  exact readItems_itemsText hl level hclose rest h true

end Items

end NodeCatalog.Json
