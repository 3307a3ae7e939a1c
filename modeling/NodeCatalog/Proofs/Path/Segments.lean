import Mathlib.Data.List.DropRight
import NodeCatalog.Path

/-!
# The segments of a path

What the operations on paths do to segments.  Joining appends segments (`segments_join`), and a path
that is made of segments has just these (`segments_ofSegments`), so that normal texts keep the
segments (`segments_normal`).  A path that is joined from segments one by one is the normal text
(`foldl_join_root`).  Between normal texts, `covers` compares segments: `covers_ofSegments` and
`prefix_of_covers` say so, the latter also where the covering path ends in a text that holds no
slash but need not be a segment.
-/

namespace NodeCatalog.Text

/-! ### Trimming -/

theorem trimEnd_cons {c : Char} (hc : isBlank c = false) (s : List Char) :
    trimEnd (c :: s) = c :: trimEnd s := by
  have h : ¬ isBlank c = true := by simp [hc]
  rw [trimEnd, trimEnd, List.reverse_cons, List.dropWhile_append]
  split
  · rename_i hs
    rw [List.dropWhile_cons_of_neg h, List.isEmpty_iff.mp hs]
    rfl
  · rw [List.reverse_append]
    rfl

theorem trimEnd_trimEnd (s : List Char) : trimEnd (trimEnd s) = trimEnd s := by
  rw [trimEnd, trimEnd, List.reverse_reverse, List.dropWhile_idempotent]

/-- A trimmed text is trimmed already. -/
theorem trim_trim (s : List Char) : trim (trim s) = trim s := by
  suffices h : trimStart (trimEnd (trimStart s)) = trimEnd (trimStart s) by
    rw [trim, trim, h, trimEnd_trimEnd]
  rcases hs : trimStart s with _ | ⟨c, r⟩
  · rfl
  · have hc : isBlank c = false := by
      have := List.head?_dropWhile_not isBlank s
      rw [trimStart] at hs
      simpa [hs] using this
    rw [trimEnd_cons hc, trimStart, List.dropWhile_cons_of_neg (by simp [hc])]

theorem mem_of_mem_trim {c : Char} {s : List Char} (h : c ∈ trim s) : c ∈ s := by
  have h1 : c ∈ (trimStart s).reverse :=
    List.dropWhile_subset _ (List.mem_reverse.mp h)
  exact List.dropWhile_subset _ (List.mem_reverse.mp h1)

end NodeCatalog.Text

namespace NodeCatalog.Path

/-! ### Pieces -/

/-- A slash between two texts parts their pieces. -/
theorem pieces_append_slash (s t : List Char) : pieces (s ++ '/' :: t) = pieces s ++ pieces t := by
  induction s with
  | nil => rw [List.nil_append, pieces_slash]; rfl
  | cons c s ih =>
    rw [List.cons_append, pieces, pieces, ih]
    split
    · rfl
    · rcases hs : pieces s with _ | ⟨p, ps⟩
      · exact absurd hs (pieces_ne_nil s)
      · rfl

/-- A text without slashes is one piece. -/
theorem pieces_of_slash_not_mem {s : List Char} (h : '/' ∉ s) : pieces s = [s] := by
  induction s with
  | nil => rfl
  | cons c s ih =>
    rw [List.mem_cons, not_or] at h
    rw [pieces, if_neg (Ne.symm h.1), ih h.2]

/-! ### Segments -/

/-- A slash between two texts parts their segments. -/
theorem segments_append_slash (p s : String) :
    segments (p ++ "/" ++ s) = segments p ++ segments s := by
  have h : (p ++ "/" ++ s).toList = p.toList ++ '/' :: s.toList := by
    simp [String.toList_append]
  rw [segments, segments, segments, h, pieces_append_slash, List.map_append, List.filter_append,
    List.map_append]

@[simp] theorem segments_empty : segments "" = [] := by
  decide +kernel

@[simp] theorem segments_root : segments root = [] := by
  decide +kernel

/-- Slashes at the end of a path name no segment. -/
theorem segments_dropEndSlashes (s : List Char) :
    segments (String.ofList (dropEndSlashes s)) = segments (String.ofList s) := by
  induction s using List.reverseRecOn with
  | nil => rfl
  | append_singleton s c ih =>
    have hdrop : dropEndSlashes (s ++ [c]) = if c = '/' then dropEndSlashes s else s ++ [c] := by
      rw [dropEndSlashes, List.reverse_append]
      by_cases hc : c = '/' <;> simp [dropEndSlashes, hc]
    rw [hdrop]
    split
    · rename_i hc
      have h := segments_append_slash (String.ofList s) ""
      have hs : String.ofList s ++ "/" ++ "" = String.ofList (s ++ [c]) := by
        rw [hc, String.append_empty, String.ofList_append]
      rw [ih, ← hs, h, segments_empty, List.append_nil]
    · rfl

/-- Joining appends the segments of what is joined. -/
theorem segments_join (parent segment : String) :
    segments (join parent segment) = segments parent ++ segments segment := by
  rw [join, segments_append_slash, segments_dropEndSlashes, String.ofList_toList]

/-- A text that is its own only segment. -/
def IsSegment (s : String) : Prop :=
  segments s = [s]

instance (s : String) : Decidable (IsSegment s) :=
  inferInstanceAs (Decidable (segments s = [s]))

/-- The segments of a path are its pieces without the white space around them. -/
theorem exists_piece_of_mem_segments {s path : String} (h : s ∈ segments path) :
    ∃ p ∈ pieces path.toList, Text.trim p ≠ [] ∧ s = String.ofList (Text.trim p) := by
  rw [segments, List.mem_map] at h
  obtain ⟨q, hq, rfl⟩ := h
  obtain ⟨hq, hne⟩ := List.mem_filter.mp hq
  obtain ⟨p, hp, rfl⟩ := List.mem_map.mp hq
  exact ⟨p, hp, by simpa using hne, rfl⟩

theorem isSegment_of_trim_eq {s : List Char} (hslash : '/' ∉ s) (htrim : Text.trim s = s)
    (hne : s ≠ []) : IsSegment (String.ofList s) := by
  rw [IsSegment, segments, String.toList_ofList, pieces_of_slash_not_mem hslash]
  simp [htrim, hne]

/-- What a path has as a segment is one. -/
theorem isSegment_of_mem_segments {s path : String} (h : s ∈ segments path) : IsSegment s := by
  obtain ⟨p, hp, hne, rfl⟩ := exists_piece_of_mem_segments h
  have hslash : '/' ∉ Text.trim p := fun h =>
    slash_not_mem_of_mem_pieces hp (Text.mem_of_mem_trim h)
  exact isSegment_of_trim_eq hslash (Text.trim_trim p) hne

theorem isSegment_of_segments_eq_append {path : String} {front back : List String}
    (h : segments path = front ++ back) : ∀ s ∈ front, IsSegment s :=
  fun _ hs => isSegment_of_mem_segments (h ▸ List.mem_append_left back hs)

theorem IsSegment.mem_segments {s : String} (h : IsSegment s) : s ∈ segments s := by
  rw [h]
  exact List.mem_singleton_self s

/-- A segment holds no slash. -/
theorem IsSegment.slash_not_mem {s : String} (h : IsSegment s) : '/' ∉ s.toList := by
  obtain ⟨p, hp, -, hs⟩ := exists_piece_of_mem_segments h.mem_segments
  rw [hs, String.toList_ofList]
  exact fun hc => slash_not_mem_of_mem_pieces hp (Text.mem_of_mem_trim hc)

theorem IsSegment.ne_empty {s : String} (h : IsSegment s) : s ≠ "" := by
  rintro rfl
  rw [IsSegment, segments_empty] at h
  cases h

/-! ### Normal texts -/

theorem ofSegments_append {a b : List String} (ha : a ≠ []) (hb : b ≠ []) :
    ofSegments (a ++ b) = ofSegments a ++ ofSegments b := by
  rw [ofSegments, String.intercalate_append_of_ne_nil ha hb, ofSegments, ofSegments]
  simp only [String.append_assoc]

theorem ofSegments_singleton (s : String) : ofSegments [s] = "/" ++ s := by
  rw [ofSegments, String.intercalate_singleton]

/-- A path made of segments has these segments. -/
theorem segments_ofSegments {a : List String} (h : ∀ s ∈ a, IsSegment s) :
    segments (ofSegments a) = a := by
  induction a with
  | nil => exact segments_root
  | cons s a ih =>
    have hs : segments (ofSegments [s]) = [s] := by
      have := segments_append_slash "" s
      rw [String.empty_append, segments_empty, List.nil_append, h s List.mem_cons_self] at this
      rw [ofSegments_singleton, this]
    by_cases ha : a = []
    · rw [ha, hs]
    · have hsplit : ofSegments (s :: a) = ofSegments [s] ++ "/" ++ String.intercalate "/" a := by
        rw [← List.singleton_append, ofSegments_append (List.cons_ne_nil s []) ha]
        rw [ofSegments, ofSegments]
        simp only [String.append_assoc]
      have htail : segments (String.intercalate "/" a) = a := by
        have := segments_append_slash "" (String.intercalate "/" a)
        rw [String.empty_append, segments_empty, List.nil_append] at this
        rw [← this]
        exact ih fun x hx => h x (List.mem_cons_of_mem _ hx)
      rw [hsplit, segments_append_slash, hs, htail, List.singleton_append]

/-- The normal text of a path has the segments of the path. -/
@[simp] theorem segments_normal (path : String) : segments (normal path) = segments path :=
  segments_ofSegments fun _ hs => isSegment_of_mem_segments hs

/-! ### Joining segments -/

theorem dropEndSlashes_append {s t : List Char} (ht : '/' ∉ t) (hne : t ≠ []) :
    dropEndSlashes (s ++ t) = s ++ t := by
  obtain ⟨t, c, rfl⟩ := (List.eq_nil_or_concat t).resolve_left hne
  have hc : ¬ (c == '/') = true := by
    intro h
    exact ht (by rw [List.concat_eq_append, beq_iff_eq.mp h]; simp)
  have hrev : (s ++ t.concat c).reverse = c :: (s ++ t).reverse := by simp
  rw [dropEndSlashes, hrev, List.dropWhile_cons, if_neg hc, ← hrev, List.reverse_reverse]

/-- Joining a text to the normal text of segments puts it behind them. -/
theorem join_ofSegments {a : List String} (h : ∀ s ∈ a, IsSegment s) (s : String) :
    join (ofSegments a) s = ofSegments (a ++ [s]) := by
  rcases List.eq_nil_or_concat a with rfl | ⟨b, l, rfl⟩
  · rw [List.nil_append, ofSegments_singleton, join]
    rfl
  · rw [List.concat_eq_append] at h ⊢
    have hl : IsSegment l := h l (by simp)
    have hend : ∃ x : List Char, (ofSegments (b ++ [l])).toList = x ++ l.toList := by
      by_cases hb : b = []
      · exact ⟨['/'], by rw [hb, List.nil_append, ofSegments_singleton, String.toList_append]; rfl⟩
      · refine ⟨(ofSegments b).toList ++ ['/'], ?_⟩
        rw [ofSegments_append hb (List.cons_ne_nil l []), ofSegments_singleton,
          String.toList_append, String.toList_append, List.append_assoc]
        rfl
    obtain ⟨x, hx⟩ := hend
    have hne : l.toList ≠ [] := fun h => hl.ne_empty (String.toList_eq_nil_iff.mp h)
    rw [join, hx, dropEndSlashes_append hl.slash_not_mem hne, ← hx, String.ofList_toList,
      ofSegments_append (by simp) (List.cons_ne_nil s []), ofSegments_singleton,
      String.append_assoc]

/-- Segments that are joined one by one to a normal text make a normal text. -/
theorem foldl_join {a b : List String} (ha : ∀ s ∈ a, IsSegment s) (hb : ∀ s ∈ b, IsSegment s) :
    b.foldl join (ofSegments a) = ofSegments (a ++ b) := by
  induction b generalizing a with
  | nil => rw [List.append_nil, List.foldl_nil]
  | cons s b ih =>
    have ha' : ∀ x ∈ a ++ [s], IsSegment x := by
      intro x hx
      rcases List.mem_append.mp hx with hx | hx
      · exact ha x hx
      · exact hb x (by rw [List.mem_singleton.mp hx]; exact List.mem_cons_self)
    rw [List.foldl_cons, join_ofSegments ha, ih ha' fun x hx => hb x (List.mem_cons_of_mem _ hx),
      List.append_assoc, List.singleton_append]

/-- Segments that are joined one by one to the root make their normal text. -/
theorem foldl_join_root {a : List String} (h : ∀ s ∈ a, IsSegment s) :
    a.foldl join root = ofSegments a :=
  foldl_join (fun _ hs => absurd hs List.not_mem_nil) h

/-! ### Covering -/

theorem covers_iff {own path : String} :
    covers own path = true ↔ path = own ∨ ∃ rest, path = own ++ "/" ++ rest := by
  rw [covers, Bool.or_eq_true, beq_iff_eq, List.isPrefixOf_iff_prefix]
  refine or_congr Iff.rfl ⟨?_, ?_⟩
  · rintro ⟨rest, h⟩
    refine ⟨String.ofList rest, ?_⟩
    rw [← String.toList_inj, String.toList_append, String.toList_ofList, h]
  · rintro ⟨rest, rfl⟩
    exact ⟨rest.toList, (String.toList_append ..).symm⟩

/-- The normal text of segments covers those of all longer lists of segments. -/
theorem covers_ofSegments {a b : List String} (ha : a ≠ []) (h : a <+: b) :
    covers (ofSegments a) (ofSegments b) = true := by
  obtain ⟨r, rfl⟩ := h
  rw [covers_iff]
  by_cases hr : r = []
  · exact Or.inl (by rw [hr, List.append_nil])
  · refine Or.inr ⟨String.intercalate "/" r, ?_⟩
    rw [ofSegments_append ha hr, String.append_assoc]
    rfl

theorem pieces_ofSegments {a : List String} (ha : a ≠ []) (h : ∀ s ∈ a, '/' ∉ s.toList) :
    pieces (ofSegments a).toList = [] :: a.map String.toList := by
  induction a with
  | nil => exact absurd rfl ha
  | cons s a ih =>
    have hs : pieces (ofSegments [s]).toList = [[], s.toList] := by
      have hslash : (ofSegments [s]).toList = '/' :: s.toList := by
        rw [ofSegments_singleton, String.toList_append]
        rfl
      rw [hslash, pieces_slash, pieces_of_slash_not_mem (h s List.mem_cons_self)]
    by_cases hnil : a = []
    · rw [hnil, hs]
      rfl
    · have htail := ih hnil fun x hx => h x (List.mem_cons_of_mem _ hx)
      have hsplit : (ofSegments a).toList = '/' :: (String.intercalate "/" a).toList := by
        rw [ofSegments, String.toList_append]
        rfl
      rw [hsplit, pieces_slash, List.cons.injEq] at htail
      rw [← List.singleton_append, ofSegments_append (List.cons_ne_nil s []) hnil,
        String.toList_append, hsplit, pieces_append_slash, hs, htail.2]
      rfl

/-- If the normal text of segments with a text without slashes behind them covers a normal text,
they are the first segments of the latter; only the blank text at the root covers the root as
well. -/
theorem prefix_of_covers {a b : List String} {s : String} (ha : ∀ x ∈ a, IsSegment x)
    (hs : '/' ∉ s.toList) (hb : ∀ x ∈ b, IsSegment x)
    (h : covers (ofSegments (a ++ [s])) (ofSegments b) = true) :
    a ++ [s] <+: b ∨ (a = [] ∧ s = "" ∧ b = []) := by
  have hown : pieces (ofSegments (a ++ [s])).toList = [] :: (a ++ [s]).map String.toList := by
    apply pieces_ofSegments (by simp)
    intro x hx
    rcases List.mem_append.mp hx with hx | hx
    · exact (ha x hx).slash_not_mem
    · rw [List.mem_singleton.mp hx]
      exact hs
  have hpre : pieces (ofSegments (a ++ [s])).toList <+: pieces (ofSegments b).toList := by
    rcases covers_iff.mp h with heq | ⟨rest, heq⟩
    · exact heq ▸ List.prefix_refl _
    · rw [heq, String.append_assoc, String.toList_append, String.toList_append]
      exact ⟨pieces rest.toList, (pieces_append_slash _ _).symm⟩
  rw [hown] at hpre
  by_cases hnil : b = []
  · -- the root has two empty pieces
    rw [hnil] at hpre
    obtain ⟨r, hr⟩ := (List.cons_prefix_cons.mp hpre).2
    have hlen := congrArg List.length hr
    rcases a with _ | ⟨x, a⟩
    · refine Or.inr ⟨rfl, ?_, hnil⟩
      rw [← String.toList_eq_nil_iff]
      simpa using (List.cons.inj hr).1
    · simp [pieces] at hlen
  · rw [pieces_ofSegments hnil fun x hx => (hb x hx).slash_not_mem] at hpre
    obtain ⟨l, hl, hmap⟩ := List.prefix_map_iff.mp (List.cons_prefix_cons.mp hpre).2
    have heq : a ++ [s] = l := List.map_injective_iff.mpr (fun _ _ => String.toList_injective) hmap
    exact Or.inl (heq ▸ hl)

end NodeCatalog.Path
