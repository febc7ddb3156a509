import DataBinding.Template
import Mathlib.Data.List.DropRight

/-!
# Keys without blanks

A key is an expression without the blanks around it. Cutting blanks off once is enough, so the
markers of a template are keys as they stand.
-/

namespace DataBinding

namespace Text

/-- Cutting off at the back leaves a list that begins without blanks beginning so. -/
theorem dropWhile_rdropWhile {p : Char → Bool} {cs : List Char} (hcs : cs.dropWhile p = cs) :
    (cs.rdropWhile p).dropWhile p = cs.rdropWhile p := by
  obtain ⟨rest, hrest⟩ := List.rdropWhile_prefix p (l := cs)
  cases hb : cs.rdropWhile p with
  | nil => rfl
  | cons c tail =>
    rw [hb] at hrest
    rw [← hrest] at hcs
    by_cases hc : p c = true
    · -- otherwise what is dropped would be longer than nothing
      rw [List.cons_append, List.dropWhile_cons_of_pos hc] at hcs
      have hle := (List.dropWhile_suffix (l := tail ++ rest) p).length_le
      rw [hcs, List.length_cons] at hle
      omega
    · exact List.dropWhile_cons_of_neg hc

/-- What is left after cutting at both ends has no blanks at either. -/
theorem trimmed_trimmed (cs : List Char) : trimmed (trimmed cs) = trimmed cs := by
  have hfront := dropWhile_rdropWhile (List.dropWhile_idempotent isBlank cs)
  show (((cs.dropWhile isBlank).rdropWhile isBlank).dropWhile isBlank).rdropWhile isBlank = _
  rw [hfront]
  exact List.rdropWhile_idempotent isBlank _

theorem trim_trim (s : String) : trim (trim s) = trim s := by
  simp [trim, trimmed_trimmed]

end Text

/-- The key of a marker is cut when the marker is made, so cutting it again does nothing. -/
theorem Segment.trim_of_marker_mem_ofTokens {opening closing literal tail : List Char}
    {tokens : List Token} {key : String}
    (h : .marker key ∈ Segment.ofTokens opening closing literal tokens tail) :
    Text.trim key = key := by
  induction tokens generalizing literal with
  | nil =>
    rw [ofTokens, ofText] at h
    split at h <;> simp at h
  | cons t rest ih =>
    rw [ofTokens] at h
    split at h
    · exact ih h
    · rcases List.mem_append.mp h with h | h
      · rw [ofText] at h
        split at h <;> simp at h
      · rcases List.mem_cons.mp h with h | h
        · obtain rfl := Segment.marker.inj h
          simp [Text.trim, Text.trimmed_trimmed]
        · exact ih h

/-- A watcher for a marker has the marker for its key as it stands. -/
theorem Template.trim_of_mem_markers {source : String} {d : Dialect} {key : String}
    (h : key ∈ (Template.parse source d).markers) : Text.trim key = key := by
  obtain ⟨s, hs, hkey⟩ := List.mem_filterMap.mp h
  cases s with
  | literal text => cases hkey
  | marker k =>
    obtain rfl := Option.some.inj hkey
    exact Segment.trim_of_marker_mem_ofTokens hs

end DataBinding
