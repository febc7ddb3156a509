/-!
# Searching in text

Cutting a text at the first occurrence of another, and taking a given beginning off it.
Both work on characters, so a cut never falls inside one.
-/

namespace DataBinding.Text

/-- What stands before and after the first occurrence of `pat`. The empty pattern occurs at the
very start of every text. -/
def cut? (pat : List Char) (cs : List Char) : Option (List Char × List Char) :=
  if pat.isPrefixOf cs then some ([], cs.drop pat.length)
  else match cs with
    | [] => none
    | c :: rest => (cut? pat rest).map fun parts => (c :: parts.1, parts.2)

theorem append_of_cut? {pat cs before after : List Char}
    (h : cut? pat cs = some (before, after)) : cs = before ++ pat ++ after := by
  induction cs generalizing before with
  | nil =>
    unfold cut? at h
    split at h
    · next hp =>
      simp only [Option.some.injEq, Prod.mk.injEq] at h
      obtain ⟨rfl, rfl⟩ := h
      simpa using (List.prefix_iff_eq_append.mp (List.isPrefixOf_iff_prefix.mp hp)).symm
    · simp at h
  | cons c rest ih =>
    unfold cut? at h
    split at h
    · next hp =>
      simp only [Option.some.injEq, Prod.mk.injEq] at h
      obtain ⟨rfl, rfl⟩ := h
      simpa using (List.prefix_iff_eq_append.mp (List.isPrefixOf_iff_prefix.mp hp)).symm
    · obtain ⟨parts, hparts, heq⟩ := Option.map_eq_some_iff.mp h
      simp only [Prod.mk.injEq] at heq
      obtain ⟨rfl, rfl⟩ := heq
      simp [ih hparts]

/-- What follows `start` in a text that begins with it. -/
def afterStart? (start : List Char) (cs : List Char) : Option (List Char) :=
  if start.isPrefixOf cs then some (cs.drop start.length) else none

end DataBinding.Text
