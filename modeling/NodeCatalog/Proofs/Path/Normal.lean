import NodeCatalog.Proofs.Path.Segments

/-!
# Paths as names of segments

A path is one of many texts for a list of segments, and nothing but this list counts.  The segments
are just the texts that a path cannot take apart or shorten: `isSegment_iff_plain`.  Joining appends
them, and the normal text, which is joined from them, is the one text chosen for all paths with the
same segments (`namesSegments`).
-/

namespace NodeCatalog.Text

theorem trimStart_eq_self_iff {s : List Char} :
    trimStart s = s ↔ ∀ c ∈ s.head?, isBlank c = false := by
  cases s with
  | nil => simp [trimStart]
  | cons c s => simp [trimStart, List.dropWhile_eq_self_iff]

theorem trimEnd_eq_self_iff {s : List Char} :
    trimEnd s = s ↔ ∀ c ∈ s.getLast?, isBlank c = false := by
  have hreverse : trimEnd s = s ↔ trimStart s.reverse = s.reverse := List.reverse_eq_iff
  rw [hreverse, trimStart_eq_self_iff, List.head?_reverse]

/-- A text is trimmed if it neither starts nor ends with white space. -/
theorem trim_eq_self_iff {s : List Char} :
    trim s = s ↔ (∀ c ∈ s.head?, isBlank c = false) ∧ ∀ c ∈ s.getLast?, isBlank c = false := by
  rw [← trimStart_eq_self_iff, ← trimEnd_eq_self_iff, trim]
  constructor
  · intro h
    -- nothing is lost at the end, so nothing can be lost at the start
    have hlen : s.length ≤ (trimStart s).length := by
      have hend : (trimEnd (trimStart s)).length ≤ (trimStart s).length :=
        (List.rdropWhile_prefix isBlank (trimStart s)).length_le
      rwa [h] at hend
    have hstart : trimStart s = s :=
      (List.dropWhile_suffix isBlank).eq_of_length_le hlen
    exact ⟨hstart, by rwa [hstart] at h⟩
  · rintro ⟨hstart, hend⟩
    rw [hstart, hend]

end NodeCatalog.Text

namespace NodeCatalog.Path

/-- A text that holds something, has no slash in it and no white space around it. -/
structure Plain (g : String) : Prop where
  ne_empty : g ≠ ""
  slash_not_mem : '/' ∉ g.toList
  head_not_blank : ∀ c ∈ g.toList.head?, Text.isBlank c = false
  last_not_blank : ∀ c ∈ g.toList.getLast?, Text.isBlank c = false

/-- A segment is trimmed. -/
theorem IsSegment.trim_eq {g : String} (h : IsSegment g) : Text.trim g.toList = g.toList := by
  obtain ⟨p, -, -, hg⟩ := exists_piece_of_mem_segments h.mem_segments
  rw [hg, String.toList_ofList, Text.trim_trim]

/-- The segments are the plain texts. -/
theorem isSegment_iff_plain {g : String} : IsSegment g ↔ Plain g := by
  constructor
  · intro h
    obtain ⟨hhead, hlast⟩ := Text.trim_eq_self_iff.mp h.trim_eq
    exact ⟨h.ne_empty, h.slash_not_mem, hhead, hlast⟩
  · intro h
    have htrim : Text.trim g.toList = g.toList :=
      Text.trim_eq_self_iff.mpr ⟨h.head_not_blank, h.last_not_blank⟩
    have hne : g.toList ≠ [] := fun hnil => h.ne_empty (String.toList_eq_nil_iff.mp hnil)
    have hsegment := isSegment_of_trim_eq h.slash_not_mem htrim hne
    rwa [String.ofList_toList] at hsegment

/-- Paths have the same normal text if they have the same segments. -/
theorem normal_eq_normal_iff {p q : String} : normal p = normal q ↔ segments p = segments q := by
  constructor
  · intro h
    rw [← segments_normal p, h, segments_normal]
  · intro h
    rw [normal, h, normal]

/-- What a path tells is the list of its segments. -/
structure NamesSegments (p : String) : Prop where
  /-- Joining appends the segments of what is joined. -/
  join (s : String) : segments (join p s) = segments p ++ segments s
  /-- Each segment is plain, and a path that has itself as its only segment. -/
  plain (g : String) (hg : g ∈ segments p) : Plain g ∧ segments g = [g]
  /-- The normal text is joined from the segments, one by one. -/
  foldl_join : normal p = (segments p).foldl Path.join root
  /-- The normal text has the same segments. -/
  segments_normal : segments (normal p) = segments p
  /-- It is normal already. -/
  normal_normal : normal (normal p) = normal p
  /-- It is shared by just the paths with the same segments. -/
  normal_eq_iff (q : String) : normal p = normal q ↔ segments p = segments q

/-- All texts, whatever slashes and white space they hold, are paths that name segments. -/
theorem namesSegments (p : String) : NamesSegments p where
  join := segments_join p
  plain g hg := by
    have h := isSegment_of_mem_segments hg
    exact ⟨isSegment_iff_plain.mp h, h⟩
  foldl_join := (foldl_join_root fun _ hg => isSegment_of_mem_segments hg).symm
  segments_normal := segments_normal p
  normal_normal := normal_eq_normal_iff.mpr (segments_normal p)
  normal_eq_iff _ := normal_eq_normal_iff

/-- Slashes in a row, blank pieces and white space around slashes do not count. -/
example : segments (join " /a b/ \t//\u00a0c /" "d/ /e") = ["a b", "c", "d", "e"] := by
  decide +kernel

end NodeCatalog.Path
