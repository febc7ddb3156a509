/-!
# Blank characters

What counts as white space around a key, between class names and inside a marker.
The set is the Unicode property `White_Space`, which is larger than ASCII's.

`mem_words` says which words are read off a text: those that stand in it between blanks or its ends.
-/

namespace DataBinding.Text

/-- The ranges of the Unicode property `White_Space`, both ends included. -/
def blankRanges : List (Nat × Nat) :=
  [(0x9, 0xD), (0x20, 0x20), (0x85, 0x85), (0xA0, 0xA0), (0x1680, 0x1680),
   (0x2000, 0x200A), (0x2028, 0x2029), (0x202F, 0x202F), (0x205F, 0x205F), (0x3000, 0x3000)]

/-- Whether a character is white space. -/
def isBlank (c : Char) : Bool :=
  blankRanges.any fun range => range.1 ≤ c.toNat && c.toNat ≤ range.2

/-- Drops the blank characters at both ends. -/
def trimmed (cs : List Char) : List Char :=
  ((cs.dropWhile isBlank).reverse.dropWhile isBlank).reverse

/-- A text without the blank characters at its ends. -/
def trim (s : String) : String :=
  String.ofList (trimmed s.toList)

/-- A finished word, unless it is empty. -/
private def wordOf (word : List Char) : List (List Char) :=
  if word.isEmpty then [] else [word]

/-- The words of `cs`, when `word` has been read of the first one already. -/
private def wordsAfter (word : List Char) : List Char → List (List Char)
  | [] => wordOf word
  | c :: cs => if isBlank c then wordOf word ++ wordsAfter [] cs else wordsAfter (word ++ [c]) cs

/-- The maximal runs of characters that are not blank, in order. -/
def words (s : String) : List String :=
  (wordsAfter [] s.toList).map String.ofList

/-- Whether a text ends with a blank, or is empty. -/
def EndsBlank (cs : List Char) : Prop := ∀ c ∈ cs.getLast?, isBlank c = true

/-- Whether a text begins with a blank, or is empty. -/
def BeginsBlank (cs : List Char) : Prop := ∀ c ∈ cs.head?, isBlank c = true

/-- A word of a text: characters that are not blank, with a blank or an end of the text on either
side. -/
structure HasWord (cs word : List Char) : Prop where
  nonempty : word ≠ []
  solid : ∀ c ∈ word, isBlank c = false
  apart : ∃ before after, cs = before ++ word ++ after ∧ EndsBlank before ∧ BeginsBlank after

theorem endsBlank_append_cons {front cs : List Char} {c : Char} (hc : isBlank c = true) :
    EndsBlank (front ++ c :: cs) ↔ EndsBlank cs := by
  unfold EndsBlank
  rw [List.getLast?_append, List.getLast?_cons]
  cases cs.getLast? with
  | none => simpa using hc
  | some x => simp

theorem beginsBlank_append_cons {cs back : List Char} {c : Char} (hc : isBlank c = true) :
    BeginsBlank (cs ++ c :: back) ↔ BeginsBlank cs := by
  cases cs with
  | nil => simpa [BeginsBlank] using hc
  | cons x cs => simp [BeginsBlank]

/-- A text without blanks has itself for a word and no other, unless it is empty. -/
theorem hasWord_of_solid {cs word : List Char} (hcs : ∀ c ∈ cs, isBlank c = false) :
    HasWord cs word ↔ cs ≠ [] ∧ word = cs := by
  constructor
  · rintro ⟨hne, -, before, after, rfl, hbefore, hafter⟩
    have hfront : before = [] := by
      cases hlast : before.getLast? with
      | none => exact List.getLast?_eq_none_iff.mp hlast
      | some c =>
        have hmem : c ∈ before ++ word ++ after := by simp [List.mem_of_getLast? hlast]
        exact absurd (hbefore c hlast) (by simp [hcs c hmem])
    have hback : after = [] := by
      cases after with
      | nil => rfl
      | cons c rest => exact absurd (hafter c rfl) (by simp [hcs c])
    simp [hfront, hback, hne]
  · rintro ⟨hne, rfl⟩
    exact ⟨hne, hcs, [], [], by simp, by simp [EndsBlank], by simp [BeginsBlank]⟩

/-- No word goes over a blank. -/
theorem hasWord_append_cons {front back word : List Char} {c : Char} (hc : isBlank c = true) :
    HasWord (front ++ c :: back) word ↔ HasWord front word ∨ HasWord back word := by
  constructor
  · rintro ⟨hne, hsolid, before, after, heq, hbefore, hafter⟩
    have hapart : c ∉ word := fun hmem => by simp [hsolid c hmem] at hc
    -- the blank stands after the word, or in it, or before it
    rcases List.append_eq_append_iff.mp heq with ⟨rest, hword, htail⟩ | ⟨rest, rfl, rfl⟩
    · cases rest with
      | nil =>
        have hfront : front = before ++ word ++ [] := by simpa using hword.symm
        exact .inl ⟨hne, hsolid, before, [], hfront, hbefore, by simp [BeginsBlank]⟩
      | cons x rest =>
        obtain ⟨rfl, rfl⟩ := List.cons.inj htail
        rcases List.append_eq_append_iff.mp hword with ⟨mid, rfl, rfl⟩ | ⟨mid, rfl, hmid⟩
        · exact absurd (by simp) hapart
        · cases mid with
          | nil =>
            rw [List.nil_append] at hmid
            exact absurd (hmid ▸ List.mem_cons_self) hapart
          | cons y mid =>
            obtain ⟨rfl, rfl⟩ := List.cons.inj hmid
            exact .inr ⟨hne, hsolid, mid, after, rfl, (endsBlank_append_cons hc).mp hbefore, hafter⟩
    · exact .inl ⟨hne, hsolid, before, rest, rfl, hbefore, (beginsBlank_append_cons hc).mp hafter⟩
  · rintro (⟨hne, hsolid, before, after, rfl, hbefore, hafter⟩ |
      ⟨hne, hsolid, before, after, rfl, hbefore, hafter⟩)
    · exact ⟨hne, hsolid, before, after ++ c :: back, by simp, hbefore,
        (beginsBlank_append_cons hc).mpr hafter⟩
    · exact ⟨hne, hsolid, front ++ c :: before, after, by simp,
        (endsBlank_append_cons hc).mpr hbefore, hafter⟩

private theorem mem_wordOf {read word : List Char} (hread : ∀ c ∈ read, isBlank c = false) :
    word ∈ wordOf read ↔ HasWord read word := by
  rw [hasWord_of_solid hread]
  cases read <;> simp [wordOf]

/-- What has been read of a word goes on with the rest of the text until the next blank. -/
private theorem mem_wordsAfter {read cs word : List Char}
    (hread : ∀ c ∈ read, isBlank c = false) :
    word ∈ wordsAfter read cs ↔ HasWord (read ++ cs) word := by
  induction cs generalizing read with
  | nil => rw [wordsAfter, List.append_nil, mem_wordOf hread]
  | cons c cs ih =>
    rw [wordsAfter]
    split
    · next hc =>
      have hrest : word ∈ wordsAfter [] cs ↔ HasWord cs word := ih (by simp)
      rw [List.mem_append, mem_wordOf hread, hrest, hasWord_append_cons hc]
    · next hc =>
      have hread' : ∀ x ∈ read ++ [c], isBlank x = false := by
        simpa [or_imp, forall_and] using And.intro hread hc
      rw [List.append_cons read c cs]
      exact ih hread'

/-- The words that are read off a text are all the words it has. -/
theorem mem_words {s word : String} : word ∈ words s ↔ HasWord s.toList word.toList := by
  have hread : word.toList ∈ wordsAfter [] s.toList ↔ HasWord s.toList word.toList :=
    mem_wordsAfter (by simp)
  rw [words, ← hread, List.mem_map]
  constructor
  · rintro ⟨cs, hcs, rfl⟩
    rwa [String.toList_ofList]
  · exact fun h => ⟨_, h, String.ofList_toList⟩

end DataBinding.Text
