import NodeCatalog.Json.Reader

/-!
# Skipping values

The value of a field that no record knows is skipped.  It must be well formed and may nest to any
depth: the arrays and objects that are open are kept in a list, and the loop goes from value to
value.
-/

namespace NodeCatalog.Json

/-- What is open around a place in a text. -/
inductive Frame where
  | array
  | object
deriving DecidableEq, Repr

/-- The mark that closes a frame. -/
def Frame.close : Frame → Char
  | array => ']'
  | object => '}'

/-- Skips a key and its colon. -/
def skipKey (s : List Char) : Except Failure (List Char) :=
  match skipSpacing s with
  | [] => .error .unfinished
  | '"' :: rest =>
    match skipLiteral rest with
    | .error e => .error e
    | .ok rest => expectColon rest
  | _ => .error .malformed

/-- Skips what comes before the next value in a frame: a key in an object, nothing in an array. -/
def enter (frame : Frame) (s : List Char) : Except Failure (List Char) :=
  match frame with
  | .array => .ok s
  | .object => skipKey s

/-- Skips a value that holds no others. -/
def skipScalar (s : List Char) : Except Failure (List Char) :=
  match s with
  | [] => .error .unfinished
  | c :: rest =>
    if c = 'n' then expect ['u', 'l', 'l'] rest
    else if c = 't' then expect ['r', 'u', 'e'] rest
    else if c = 'f' then expect ['a', 'l', 's', 'e'] rest
    else if c = '-' ∨ c.isDigit then skipNumber s
    else if c = '"' then skipLiteral rest
    else .error .malformed

theorem shorter_of_skipKey {s r : List Char} (h : skipKey s = .ok r) : r.length < s.length := by
  have hs := length_skipSpacing_le s
  unfold skipKey at h
  split at h
  · cases h
  · rename_i hq
    split at h
    · cases h
    · rename_i hl
      have := shorter_of_skipLiteral hl
      have := shorter_of_expectColon h
      rw [hq, List.length_cons] at hs
      omega
  · cases h

theorem length_le_of_enter {frame : Frame} {s r : List Char} (h : enter frame s = .ok r) :
    r.length ≤ s.length := by
  cases frame with
  | array =>
    simp only [enter, Except.ok.injEq] at h
    simp [h]
  | object =>
    have := shorter_of_skipKey h
    omega

theorem shorter_of_skipScalar {s r : List Char} (h : skipScalar s = .ok r) :
    r.length < s.length := by
  unfold skipScalar at h
  split at h
  · cases h
  · rename_i c rest
    have word : ∀ w, expect w rest = .ok r → r.length < (c :: rest).length := by
      intro w hw
      have := length_le_of_expect hw
      simp only [List.length_cons]
      omega
    split at h
    · exact word _ h
    · split at h
      · exact word _ h
      · split at h
        · exact word _ h
        · split at h
          · exact shorter_of_skipNumber h
          · split at h
            · have := shorter_of_skipLiteral h
              simp only [List.length_cons]
              omega
            · cases h

/-- The frame that a character opens. -/
def Frame.opened (c : Char) : Option Frame :=
  if c = '[' then some array else if c = '{' then some object else none

/-- The place of a skipping loop: at a value, or behind one. -/
inductive Place where
  | value
  | behind
deriving DecidableEq, Repr

/-- Skips from a place to the end of the outermost open frame. -/
def skipFrom (place : Place) (frames : List Frame) (s : List Char) :
    Except Failure (List Char) :=
  match place with
  | .value =>
    match _hs : skipSpacing s with
    | [] => .error .unfinished
    | c :: rest =>
      match Frame.opened c with
      | none =>
        match _hr : skipScalar (c :: rest) with
        | .error e => .error e
        | .ok after => skipFrom .behind frames after
      | some frame =>
        match _ht : skipSpacing rest with
        | [] => .error .unfinished
        | d :: t =>
          if d = frame.close then skipFrom .behind frames t
          else
            match _hr : enter frame (d :: t) with
            | .error e => .error e
            | .ok inner => skipFrom .value (frame :: frames) inner
  | .behind =>
    match frames with
    | [] => .ok s
    | frame :: frames =>
      match _hs : skipSpacing s with
      | [] => .error .unfinished
      | c :: rest =>
        if c = frame.close then skipFrom .behind frames rest
        else if c = ',' then
          match _hr : enter frame rest with
          | .error e => .error e
          | .ok next => skipFrom .value (frame :: frames) next
        else .error .malformed
termination_by s.length
decreasing_by
  all_goals
    have hs := length_skipSpacing_le s
    rw [_hs, List.length_cons] at hs
  · have := shorter_of_skipScalar _hr
    simp only [List.length_cons] at this
    omega
  · have ht := length_skipSpacing_le rest
    rw [_ht, List.length_cons] at ht
    omega
  · have ht := length_skipSpacing_le rest
    rw [_ht] at ht
    have := length_le_of_enter _hr
    omega
  · omega
  · have := length_le_of_enter _hr
    omega

theorem length_of_skipFrom {place : Place} {frames : List Frame} {s r : List Char}
    (h : skipFrom place frames s = .ok r) :
    r.length ≤ s.length ∧ (place = .value → r.length < s.length) := by
  fun_induction skipFrom place frames s with
  | case1 => cases h
  | case2 => cases h
  | case3 frames s c rest hs hf rest' hr ih =>
    have hl := length_skipSpacing_le s
    rw [hs, List.length_cons] at hl
    have := shorter_of_skipScalar hr
    simp only [List.length_cons] at this
    have := (ih h).1
    exact ⟨by omega, fun _ => by omega⟩
  | case4 => cases h
  | case5 frames s c rest hs frame hf t ht ih =>
    have hl := length_skipSpacing_le s
    rw [hs, List.length_cons] at hl
    have hl' := length_skipSpacing_le rest
    rw [ht, List.length_cons] at hl'
    have := (ih h).1
    exact ⟨by omega, fun _ => by omega⟩
  | case6 => cases h
  | case7 frames s c rest hs frame hf d t ht hd rest' hr ih =>
    have hl := length_skipSpacing_le s
    rw [hs, List.length_cons] at hl
    have hl' := length_skipSpacing_le rest
    rw [ht] at hl'
    have := length_le_of_enter hr
    have := (ih h).1
    exact ⟨by omega, fun _ => by omega⟩
  | case8 s =>
    simp only [Except.ok.injEq] at h
    exact ⟨Nat.le_of_eq (by rw [h]), by simp⟩
  | case9 => cases h
  | case10 s frame frames rest hs ih =>
    have hl := length_skipSpacing_le s
    rw [hs, List.length_cons] at hl
    have := (ih h).1
    exact ⟨by omega, by simp⟩
  | case11 => cases h
  | case12 s frame frames rest next hr hs hc ih =>
    have hl := length_skipSpacing_le s
    rw [hs, List.length_cons] at hl
    have := length_le_of_enter hr
    have := (ih h).1
    exact ⟨by omega, by simp⟩
  | case13 => cases h

/-- Skips a value. -/
def Reader.skip : Reader Unit where
  read s := (skipFrom .value [] s).map fun r => ((), r)
  shorter := by
    intro s r a h
    cases hf : skipFrom .value [] s with
    | error e => rw [hf] at h; cases h
    | ok q =>
      rw [hf] at h
      simp only [Except.map, Except.ok.injEq, Prod.mk.injEq] at h
      rw [← h.2]
      exact (length_of_skipFrom hf).2 rfl

end NodeCatalog.Json
