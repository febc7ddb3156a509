import DataBinding.Dialect
import DataBinding.Text.Blank
import DataBinding.Text.Search

/-!
# Interpolation templates

A template is text with markers in it, `Hello {{ name }}!`. `scan` finds the markers, leftmost
first and as short as possible; `Template.parse` turns them into segments. A marker without any
characters stays text, and so does an opening delimiter that is never closed.
-/

namespace DataBinding

/-- A piece of a template: text, or the name of a key. -/
inductive Segment where
  | literal (text : String)
  | marker (key : String)
deriving DecidableEq

/-- A delimited piece of a source and the text that leads up to it. -/
structure Token where
  before : List Char
  inner : List Char
deriving DecidableEq

namespace Token

/-- The token as it stands in the source. -/
def source (opening closing : List Char) (t : Token) : List Char :=
  t.before ++ opening ++ t.inner ++ closing

/-- The leftmost and shortest token of a source, and what follows it. An empty delimiter delimits
nothing. -/
def first? (opening closing cs : List Char) : Option (Token × List Char) :=
  if opening.isEmpty || closing.isEmpty then none
  else
    match Text.cut? opening cs with
    | none => none
    | some (before, after) =>
      match Text.cut? closing after with
      | none => none
      | some (inner, rest) => some (⟨before, inner⟩, rest)

theorem source_append_of_first? {opening closing cs rest : List Char} {t : Token}
    (h : first? opening closing cs = some (t, rest)) :
    cs = t.source opening closing ++ rest := by
  unfold first? at h
  split at h
  · simp at h
  · split at h
    · simp at h
    · next ho =>
      split at h
      · simp at h
      · next hc =>
        simp only [Option.some.injEq, Prod.mk.injEq] at h
        obtain ⟨rfl, rfl⟩ := h
        rw [Text.append_of_cut? ho, Text.append_of_cut? hc]
        simp [source]

theorem length_lt_of_first? {opening closing cs rest : List Char} {t : Token}
    (h : first? opening closing cs = some (t, rest)) : rest.length < cs.length := by
  have hne : opening ≠ [] := by
    rintro rfl
    simp [first?] at h
  have hpos := List.length_pos_iff.mpr hne
  rw [source_append_of_first? h]
  simp only [source, List.length_append]
  omega

/-- The tokens of a source, leftmost and shortest first, and the tail after the last one. -/
def scan (opening closing cs : List Char) : List Token × List Char :=
  match h : first? opening closing cs with
  | none => ([], cs)
  | some (t, rest) =>
    have := length_lt_of_first? h
    let found := scan opening closing rest
    (t :: found.1, found.2)
termination_by cs.length

end Token

namespace Segment

/-- Text that is not empty, as a segment. -/
def ofText (cs : List Char) : List Segment :=
  if cs.isEmpty then [] else [.literal (String.ofList cs)]

/-- The segments of tokens and a tail, after the text `literal`. A token with nothing inside is
text. -/
def ofTokens (opening closing literal : List Char) : List Token → List Char → List Segment
  | [], tail => ofText (literal ++ tail)
  | t :: rest, tail =>
    -- blank inside is not empty: such a token is the marker of the empty key
    if t.inner.isEmpty then
      ofTokens opening closing (literal ++ t.source opening closing) rest tail
    else
      ofText (literal ++ t.before) ++
        .marker (String.ofList (Text.trimmed t.inner)) :: ofTokens opening closing [] rest tail

/-- The key of a marker. -/
def key? : Segment → Option String
  | literal _ => none
  | marker key => some key

end Segment

/-- A template, as its segments in order. -/
structure Template where
  segments : List Segment
deriving DecidableEq

namespace Template

/-- The template that a source is. -/
def parse (source : String) (d : Dialect) : Template :=
  let opening := d.opening.toList
  let closing := d.closing.toList
  let found := Token.scan opening closing source.toList
  ⟨Segment.ofTokens opening closing [] found.1 found.2⟩

/-- The keys of the markers, in order. -/
def markers (t : Template) : List String := t.segments.filterMap Segment.key?

/-- Whether there is a marker. -/
def hasMarkers (t : Template) : Bool := !t.markers.isEmpty

/-- Whether a source has a marker. -/
def detect (source : String) (d : Dialect) : Bool := (parse source d).hasMarkers

end Template

end DataBinding
