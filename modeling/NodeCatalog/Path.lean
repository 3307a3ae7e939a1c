import NodeCatalog.Text.Blank

/-!
# Category paths

A path is a text whose segments stand between slashes.  White space around a segment and empty
segments do not count, so many texts name one list of segments; `normal` is the text chosen among
them.  `join` appends a segment to a path as it is written.
-/

namespace NodeCatalog.Path

/-- The path of the root. -/
def root : String := "/"

/-- The pieces of a text between its slashes, empty ones included. -/
def pieces : List Char → List (List Char)
  | [] => [[]]
  | c :: s =>
    if c = '/' then [] :: pieces s
    else
      match pieces s with
      | [] => [[c]]
      | p :: ps => (c :: p) :: ps

/-- The segments of a path: its trimmed pieces that are not empty. -/
def segments (path : String) : List String :=
  (((pieces path.toList).map Text.trim).filter fun p => !p.isEmpty).map String.ofList

/-- A text without the slashes at its end. -/
def dropEndSlashes (s : List Char) : List Char :=
  (s.reverse.dropWhile fun c => c == '/').reverse

/-- The path of `segment` below `parent`: one slash stands between them, whatever slashes `parent`
ends with. -/
def join (parent segment : String) : String :=
  String.ofList (dropEndSlashes parent.toList) ++ "/" ++ segment

/-- The path with the given segments. -/
def ofSegments (segments : List String) : String :=
  "/" ++ String.intercalate "/" segments

/-- The chosen text among all paths with the same segments. -/
def normal (path : String) : String :=
  ofSegments (segments path)

/-- Whether `path` is `own` or continues it after a slash. -/
def covers (own path : String) : Bool :=
  path == own || (own ++ "/").toList.isPrefixOf path.toList

/-- Whether an id names the container that is asked, and no entry in it: a slash, or white space
only. -/
def namesHere (id : String) : Bool :=
  id == root || (Text.trim id.toList).isEmpty

/-! ### Pieces -/

theorem pieces_ne_nil (s : List Char) : pieces s ≠ [] := by
  cases s with
  | nil => simp [pieces]
  | cons c s =>
    rw [pieces]
    split
    · simp
    · split <;> simp

/-- A slash ends the first piece. -/
@[simp] theorem pieces_slash (s : List Char) : pieces ('/' :: s) = [] :: pieces s := by
  simp [pieces]

/-- No piece holds a slash. -/
theorem slash_not_mem_of_mem_pieces {s p : List Char} (h : p ∈ pieces s) : '/' ∉ p := by
  induction s generalizing p with
  | nil => simp_all [pieces]
  | cons c s ih =>
    rw [pieces] at h
    split at h
    · rcases List.mem_cons.mp h with rfl | h
      · simp
      · exact ih h
    · rename_i hc
      split at h
      · rename_i hs
        exact absurd hs (pieces_ne_nil s)
      · rename_i q qs hs
        rw [hs] at ih
        rcases List.mem_cons.mp h with rfl | h
        · have := ih List.mem_cons_self
          simp [this, Ne.symm hc]
        · exact ih (List.mem_cons_of_mem _ h)

end NodeCatalog.Path
