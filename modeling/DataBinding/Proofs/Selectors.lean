import DataBinding.Proofs.Descent
import DataBinding.Document.Selector
import Mathlib.Data.List.Forall2

/-!
# What selectors ask for

`Content.Matches` says it without reading the selector: as the ways to write one down that asks for
an element. A name after `#` is that of the id, and a name after `.` is a word of the class. Any
other selector is a tag, where ASCII capitals and small letters are the same. Nothing but an element
is ever asked for.

A search goes through the list of a tree and ends at the first match, so what it finds is told by
what stands before it in the list.
-/

namespace DataBinding

namespace Text

/-- Whether two characters are the same, or the capital and the small form of an ASCII letter. -/
def SameLetter (a b : Char) : Prop :=
  a = b ∨ ∃ i < 26, a.toNat = 'A'.toNat + i ∧ b.toNat = 'a'.toNat + i ∨
    a.toNat = 'a'.toNat + i ∧ b.toNat = 'A'.toNat + i

/-- Whether two texts are the same, place by place, but for the case of ASCII letters. -/
def SameLetters (s t : String) : Prop := List.Forall₂ SameLetter s.toList t.toList

theorem toNat_toLower (c : Char) :
    c.toLower.toNat = if 65 ≤ c.toNat ∧ c.toNat ≤ 90 then c.toNat + 32 else c.toNat := by
  unfold Char.toLower
  split
  · next h =>
    have hcapital : 65 ≤ c.toNat ∧ c.toNat ≤ 90 :=
      ⟨UInt32.le_iff_toNat_le.mp h.1, UInt32.le_iff_toNat_le.mp h.2⟩
    rw [if_pos hcapital]
    show (c.val + 32).toNat = c.toNat + 32
    rw [UInt32.toNat_add]
    exact Nat.mod_eq_of_lt (show c.toNat + 32 < 2 ^ 32 by omega)
  · next h =>
    rw [if_neg]
    exact fun hcapital =>
      h ⟨UInt32.le_iff_toNat_le.mpr hcapital.1, UInt32.le_iff_toNat_le.mpr hcapital.2⟩

theorem toLower_eq_iff {a b : Char} : a.toLower = b.toLower ↔ SameLetter a b := by
  unfold SameLetter
  rw [← Char.toNat_inj, toNat_toLower, toNat_toLower, ← Char.toNat_inj]
  show _ ↔ _ ∨ ∃ i < 26, a.toNat = 65 + i ∧ b.toNat = 97 + i ∨ a.toNat = 97 + i ∧ b.toNat = 65 + i
  constructor
  · intro h
    split at h <;> split at h
    · exact .inl (by omega)
    · exact .inr ⟨a.toNat - 65, by omega⟩
    · exact .inr ⟨b.toNat - 65, by omega⟩
    · exact .inl h
  · rintro (h | ⟨i, hi, ⟨ha, hb⟩ | ⟨ha, hb⟩⟩)
    · rw [h]
    · rw [if_pos (by omega), if_neg (by omega)]
      omega
    · rw [if_neg (by omega), if_pos (by omega)]
      omega

end Text

theorem Selector.foldCase_eq_iff {s t : String} :
    foldCase s = foldCase t ↔ Text.SameLetters s t := by
  unfold foldCase Text.SameLetters
  rw [← List.forall₂_eq_eq_eq, List.forall₂_map_left_iff, List.forall₂_map_right_iff]
  simp only [Text.toLower_eq_iff]

/-- Whether a selector asks for what a node holds. -/
inductive Content.Matches : String → Content → Prop where
  | id {name tag value : String} {attributes : OrderedMap String}
      (h : attributes.find? "id" = some name) :
      Matches ("#" ++ name) (.element tag attributes value)
  | className {name classes tag value : String} {attributes : OrderedMap String}
      (h : attributes.find? "class" = some classes)
      (hword : Text.HasWord classes.toList name.toList) :
      Matches ("." ++ name) (.element tag attributes value)
  | tag {selector tag value : String} {attributes : OrderedMap String}
      (hid : ∀ name, selector ≠ "#" ++ name) (hclass : ∀ name, selector ≠ "." ++ name)
      (h : Text.SameLetters tag selector) : Matches selector (.element tag attributes value)

namespace Selector

/-- A text that begins with a character is that character and a name. -/
theorem eq_append_of_toList {selector start : String} {c : Char} {name : List Char}
    (h : selector.toList = c :: name) (hstart : start.toList = [c]) :
    selector = start ++ String.ofList name := by
  apply String.toList_inj.mp
  rw [h, String.toList_append, hstart, String.toList_ofList, List.singleton_append]

theorem parse_id (name : String) : parse ("#" ++ name) = .id name := by
  simp [parse]

theorem parse_className (name : String) : parse ("." ++ name) = .className name := by
  simp [parse]

theorem parse_tag {selector : String} (hid : ∀ name, selector ≠ "#" ++ name)
    (hclass : ∀ name, selector ≠ "." ++ name) : parse selector = .tag selector := by
  unfold parse
  split
  · next name h => exact absurd (eq_append_of_toList h rfl) (hid _)
  · next name h => exact absurd (eq_append_of_toList h rfl) (hclass _)
  · rfl

/-- A selector is written in one of three ways. -/
theorem written (selector : String) : (∃ name, selector = "#" ++ name) ∨
    (∃ name, selector = "." ++ name) ∨
      (∀ name, selector ≠ "#" ++ name) ∧ ∀ name, selector ≠ "." ++ name := by
  by_cases hid : ∃ name, selector = "#" ++ name
  · exact .inl hid
  · by_cases hclass : ∃ name, selector = "." ++ name
    · exact .inr (.inl hclass)
    · exact .inr (.inr ⟨fun name h => hid ⟨name, h⟩, fun name h => hclass ⟨name, h⟩⟩)

/-- What is read off a selector accepts what the selector asks for. -/
theorem accepts_parse_iff {selector : String} {c : Content} :
    (parse selector).accepts c = true ↔ c.Matches selector := by
  constructor
  · intro h
    cases c with
    | text s | comment s => cases hs : parse selector <;> simp [hs, accepts] at h
    | element tag attributes value =>
      rcases written selector with ⟨name, rfl⟩ | ⟨name, rfl⟩ | ⟨hid, hclass⟩
      · rw [parse_id] at h
        exact .id (eq_of_beq h)
      · rw [parse_className, accepts] at h
        cases hclasses : attributes.find? "class" with
        | none => simp [hclasses] at h
        | some classes =>
          rw [hclasses] at h
          exact .className hclasses (Text.mem_words.mp (List.contains_iff_mem.mp h))
      · rw [parse_tag hid hclass] at h
        exact .tag hid hclass (foldCase_eq_iff.mp (eq_of_beq h))
  · intro h
    cases h with
    | id h =>
      rw [parse_id, accepts, h]
      exact beq_self_eq_true _
    | className h hword =>
      rw [parse_className, accepts, h]
      exact List.contains_iff_mem.mpr (Text.mem_words.mpr hword)
    | tag hid hclass h =>
      rw [parse_tag hid hclass, accepts, foldCase_eq_iff.mpr h]
      exact beq_self_eq_true _

end Selector

instance (selector : String) (c : Content) : Decidable (c.Matches selector) :=
  decidable_of_iff _ Selector.accepts_parse_iff

/-! ## The search -/

section

variable {κ : Type} {d : Document κ}

mutual

/-- A search takes the first node that is accepted of those listed below the top. -/
theorem Selector.search_eq (s : Selector) {t : Tree} (h : t.Of d) :
    s.search t = (Tree.idsOf t.children).find? fun k => s.accepts (d.content k) := by
  match t with
  | .node top content listeners children => exact s.searchAll_eq h.2.2.2

theorem Selector.searchAll_eq (s : Selector) {ts : List Tree} (h : Tree.AllIn d ts) :
    s.searchAll ts = (Tree.idsOf ts).find? fun k => s.accepts (d.content k) := by
  match ts with
  | [] => rfl
  | t :: rest =>
    rw [searchAll, ← h.1.content_id, s.search_eq h.1, s.searchAll_eq h.2, Tree.idsOf,
      t.ids_eq_cons, List.cons_append, List.find?_cons, List.find?_append]
    split
    · next haccepts => rw [haccepts]
    · next haccepts =>
      rw [Bool.eq_false_iff.mpr haccepts]
      cases (Tree.idsOf t.children).find? fun k => s.accepts (d.content k) <;> rfl

end

variable {n : NodeId} {t : Tree} {selector : String}

/-- The search goes by what the document lists, whichever tree of it is searched. -/
theorem Document.query_eq (ht : t.Of d) (selector : String) :
    d.query t.id selector =
      (Tree.idsOf t.children).find? fun k => decide ((d.content k).Matches selector) := by
  have hids : (d.tree t.id).ids = t.ids := ht.of_tree.ids_eq ht (d.id_treeWithin _ _)
  rw [Tree.ids_eq_cons, t.ids_eq_cons] at hids
  unfold query
  rw [Selector.search_eq _ ht.of_tree, (List.cons.inj hids).2]
  congr 1
  funext k
  exact Bool.eq_iff_iff.mpr (Selector.accepts_parse_iff.trans decide_eq_true_iff.symm)

/-- What is found matches, and nothing that is listed before it does. -/
theorem Document.query_eq_some_iff (ht : t.Of d) :
    d.query t.id selector = some n ↔
      ∃ before after, Tree.idsOf t.children = before ++ n :: after ∧
        (d.content n).Matches selector ∧ ∀ k ∈ before, ¬ (d.content k).Matches selector := by
  rw [query_eq ht, List.find?_eq_some_iff_append]
  constructor
  · rintro ⟨hn, before, after, hids, hbefore⟩
    exact ⟨before, after, hids, of_decide_eq_true hn, by simpa using hbefore⟩
  · rintro ⟨before, after, hids, hn, hbefore⟩
    exact ⟨decide_eq_true hn, before, after, hids, by simpa using hbefore⟩

/-- Nothing is found exactly if nothing strictly below matches. -/
theorem Document.query_eq_none_iff (ht : t.Of d) :
    d.query t.id selector = none ↔
      ∀ k, d.StrictlyBelow t.id k → ¬ (d.content k).Matches selector := by
  rw [query_eq ht, List.find?_eq_none]
  simp only [ht.strictlyBelow_iff, decide_eq_true_eq]

end

end DataBinding
