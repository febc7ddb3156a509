import DataBinding.Directive
import DataBinding.Proofs.Tokens

/-!
# The grammar of attribute names

`Directive.Named` says what the name of an attribute stands for without a search: as a way to write
the name down. A token that is empty introduces nothing, whether it is a prefix or the separator, so
every name stands for exactly one thing.

`Directive.parse` agrees but for one slip. It treats the empty prefixes so, but hands the empty
separator to the search, which finds it in front of everything. The key is then empty, whatever
follows the prefix, and the name is refused.
-/

namespace DataBinding

namespace Directive

/-- The name is the token `start`, which is not empty, and then `rest`. -/
structure Announced (start name : String) (rest : List Char) : Prop where
  nonempty : start ≠ ""
  spelled : name.toList = start.toList ++ rest

/-- A key with its qualifier, if it has one, as they are written with a separator. The key ends at
the first separator; with no separator, or with the empty one, all of it is key. -/
inductive Keyed (separator : List Char) : List Char → List Char → Option (List Char) → Prop where
  | qualified {key : List Char} (hne : separator ≠ []) (hfirst : Text.FirstAfter separator key)
      (qualifier : List Char) : Keyed separator (key ++ separator ++ qualifier) key (some qualifier)
  | bare {key : List Char} (h : separator = [] ∨ ∀ u v, key ≠ u ++ separator ++ v) :
      Keyed separator key key none

/-- The keys that name a routine. -/
def keys : List String :=
  ["model", "text", "on"]

/-- What a key and its qualifier stand for. -/
inductive Meaning (name : String) :
    List Char → Option (List Char) → Except ViewError (Option Directive) → Prop where
  | model (qualifier : Option (List Char)) :
      Meaning name "model".toList qualifier (.ok (some .model))
  | text (qualifier : Option (List Char)) :
      Meaning name "text".toList qualifier (.ok (some .text))
  | on {event : List Char} (hne : event ≠ []) :
      Meaning name "on".toList (some event) (.ok (some (.on (String.ofList event))))
  | unnamed {qualifier : Option (List Char)} (h : qualifier.getD [] = []) :
      Meaning name "on".toList qualifier (.error (.missingEventName name))
  | unknown {key : List Char} (h : key ∉ keys.map String.toList) (qualifier : Option (List Char)) :
      Meaning name key qualifier (.error (.unknownDirective name))

/-- What the name of an attribute stands for. The prefix of directives comes before the shorthand
for events, and what begins with neither is an ordinary attribute. -/
inductive Named (d : Dialect) (name : String) : Except ViewError (Option Directive) → Prop where
  | directive {rest key : List Char} {qualifier : Option (List Char)}
      {result : Except ViewError (Option Directive)}
      (announced : Announced d.directivePrefix name rest)
      (keyed : Keyed d.qualifierSeparator.toList rest key qualifier)
      (meaning : Meaning name key qualifier result) : Named d name result
  | event {event : List Char} (hdirective : ∀ rest, ¬ Announced d.directivePrefix name rest)
      (announced : Announced d.eventPrefix name event) (hne : event ≠ []) :
      Named d name (.ok (some (.on (String.ofList event))))
  | unnamedEvent (hdirective : ∀ rest, ¬ Announced d.directivePrefix name rest)
      (announced : Announced d.eventPrefix name []) :
      Named d name (.error (.missingEventName name))
  | ordinary (hdirective : ∀ rest, ¬ Announced d.directivePrefix name rest)
      (hevent : ∀ rest, ¬ Announced d.eventPrefix name rest) : Named d name (.ok none)

/-! ## Every name stands for one thing -/

section Determined

variable {start name : String} {separator rest rest' key key' : List Char}
  {qualifier qualifier' : Option (List Char)} {r r' : Except ViewError (Option Directive)}
  {d : Dialect}

theorem Announced.unique (h : Announced start name rest) (h' : Announced start name rest') :
    rest = rest' :=
  List.append_cancel_left (h.spelled.symm.trans h'.spelled)

theorem Keyed.unique (h : Keyed separator rest key qualifier)
    (h' : Keyed separator rest key' qualifier') : key = key' ∧ qualifier = qualifier' := by
  cases h with
  | qualified hne hfirst after =>
    generalize hrest : key ++ separator ++ after = rest at h'
    cases h' with
    | qualified _ hfirst' after' =>
      have hcut := Text.cut?_of_firstAfter hfirst after
      rw [hrest, Text.cut?_of_firstAfter hfirst' after'] at hcut
      obtain ⟨rfl, rfl⟩ := Prod.mk.inj (Option.some.inj hcut)
      exact ⟨rfl, rfl⟩
    | bare h' => exact absurd hrest.symm (h'.resolve_left hne key after)
  | bare h =>
    cases h' with
    | qualified hne' _ after' => exact absurd rfl (h.resolve_left hne' key' after')
    | bare _ => exact ⟨rfl, rfl⟩

theorem Keyed.exists (separator rest : List Char) :
    ∃ key qualifier, Keyed separator rest key qualifier := by
  by_cases hne : separator = []
  · exact ⟨rest, none, .bare (.inl hne)⟩
  · cases hcut : Text.cut? separator rest with
    | none => exact ⟨rest, none, .bare (.inr (Text.cut?_eq_none_iff.mp hcut))⟩
    | some parts =>
      refine ⟨parts.1, some parts.2, ?_⟩
      rw [Text.append_of_cut? hcut]
      exact .qualified hne (Text.firstAfter_of_cut? hcut) parts.2

/-- The empty separator separates nothing. -/
theorem keyed_nil_iff : Keyed [] rest key qualifier ↔ key = rest ∧ qualifier = none := by
  constructor
  · intro h
    exact h.unique (.bare (.inl rfl))
  · rintro ⟨rfl, rfl⟩
    exact .bare (.inl rfl)

/-- What a key stands for, computed from the key and the qualifier. -/
theorem meaning_iff : Meaning name key qualifier r ↔
    r = if key = "model".toList then .ok (some .model)
      else if key = "text".toList then .ok (some .text)
      else if key = "on".toList then ofEvent name (qualifier.getD [])
      else .error (.unknownDirective name) := by
  constructor
  · intro h
    cases h with
    | model | text => rfl
    | @on event hne => simp [ofEvent, hne]
    | unnamed h => simp [ofEvent, h]
    | unknown h =>
      simp only [keys, List.map_cons, List.map_nil, List.mem_cons, List.not_mem_nil, or_false,
        not_or] at h
      rw [if_neg h.1, if_neg h.2.1, if_neg h.2.2]
  · rintro rfl
    split
    · next h => exact h ▸ .model qualifier
    · split
      · next h => exact h ▸ .text qualifier
      · split
        · next h =>
          subst h
          cases qualifier with
          | none => exact .unnamed rfl
          | some event =>
            cases event with
            | nil => exact .unnamed rfl
            | cons c event => exact .on (List.cons_ne_nil c event)
        · next hmodel htext hon =>
          refine .unknown ?_ qualifier
          simp only [keys, List.map_cons, List.map_nil, List.mem_cons, List.not_mem_nil, or_false,
            not_or]
          exact ⟨hmodel, htext, hon⟩

theorem Meaning.unique (h : Meaning name key qualifier r) (h' : Meaning name key qualifier r') :
    r = r' :=
  (meaning_iff.mp h).trans (meaning_iff.mp h').symm

theorem Named.unique (h : Named d name r) (h' : Named d name r') : r = r' := by
  cases h with
  | directive announced keyed meaning =>
    cases h' with
    | directive announced' keyed' meaning' =>
      obtain rfl := announced.unique announced'
      obtain ⟨rfl, rfl⟩ := keyed.unique keyed'
      exact meaning.unique meaning'
    | event hno | unnamedEvent hno | ordinary hno => exact absurd announced (hno _)
  | event hno announced hne =>
    cases h' with
    | directive announced' => exact absurd announced' (hno _)
    | event _ announced' =>
      obtain rfl := announced.unique announced'
      rfl
    | unnamedEvent _ announced' => exact absurd (announced.unique announced') hne
    | ordinary _ hno' => exact absurd announced (hno' _)
  | unnamedEvent hno announced =>
    cases h' with
    | directive announced' => exact absurd announced' (hno _)
    | event _ announced' hne => exact absurd (announced'.unique announced) hne
    | unnamedEvent => rfl
    | ordinary _ hno' => exact absurd announced (hno' _)
  | ordinary hno hno' =>
    cases h' with
    | directive announced' => exact absurd announced' (hno _)
    | event _ announced' | unnamedEvent _ announced' => exact absurd announced' (hno' _)
    | ordinary => rfl

end Determined

/-! ## What is parsed -/

section Parsed

variable {name : String} {d : Dialect} {rest : List Char}

theorem afterPrefix?_eq_some_iff {start name : String} :
    afterPrefix? start name = some rest ↔ Announced start name rest := by
  unfold afterPrefix? Text.afterStart?
  constructor
  · intro h
    split at h
    · cases h
    · next hne =>
      split at h
      · next hpre =>
        obtain rfl := Option.some.inj h
        refine ⟨by simpa using hne, ?_⟩
        exact List.prefix_iff_eq_append.mp (List.isPrefixOf_iff_prefix.mp hpre) |>.symm
      · cases h
  · intro h
    have hpre : start.toList.isPrefixOf name.toList = true :=
      List.isPrefixOf_iff_prefix.mpr ⟨rest, h.spelled.symm⟩
    rw [if_neg (by simpa using h.nonempty), if_pos hpre, h.spelled, List.drop_left]

theorem afterPrefix?_eq_none_iff {start name : String} :
    afterPrefix? start name = none ↔ ∀ rest, ¬ Announced start name rest := by
  rw [Option.eq_none_iff_forall_ne_some]
  exact forall_congr' fun rest => not_congr afterPrefix?_eq_some_iff

theorem parse_of_announced (h : Announced d.directivePrefix name rest) :
    parse name d = ofKey name d.qualifierSeparator.toList rest := by
  rw [parse, afterPrefix?_eq_some_iff.mpr h]

/-- A name that announces no directive is read as it should be. -/
theorem named_parse_of_not_announced (hno : ∀ rest, ¬ Announced d.directivePrefix name rest) :
    Named d name (parse name d) := by
  rw [parse, afterPrefix?_eq_none_iff.mpr hno]
  dsimp only
  cases hevent : afterPrefix? d.eventPrefix name with
  | none => exact .ordinary hno (afterPrefix?_eq_none_iff.mp hevent)
  | some event =>
    have announced := afterPrefix?_eq_some_iff.mp hevent
    cases event with
    | nil => exact .unnamedEvent hno announced
    | cons c event => exact .event hno announced (List.cons_ne_nil c event)

/-- A directive is read as it should be where the separator is not empty. -/
theorem meaning_ofKey {separator key : List Char} {qualifier : Option (List Char)}
    (hne : separator ≠ []) (h : Keyed separator rest key qualifier) :
    Meaning name key qualifier (ofKey name separator rest) := by
  refine meaning_iff.mpr ?_
  cases h with
  | qualified _ hfirst after => rw [ofKey, Text.cut?_of_firstAfter hfirst after]; rfl
  | bare h =>
    rw [ofKey, Text.cut?_eq_none_iff.mpr (h.resolve_left hne)]
    rfl

/-- The empty separator cuts before everything, so no key is left. -/
theorem ofKey_nil (name : String) (rest : List Char) :
    ofKey name [] rest = .error (.unknownDirective name) := by
  rw [ofKey, Text.cut?_of_isPrefixOf List.isPrefixOf_nil_left]
  rfl

theorem Named.exists (d : Dialect) (name : String) : ∃ result, Named d name result := by
  by_cases h : ∃ rest, Announced d.directivePrefix name rest
  · obtain ⟨rest, announced⟩ := h
    obtain ⟨key, qualifier, keyed⟩ := Keyed.exists d.qualifierSeparator.toList rest
    exact ⟨_, .directive announced keyed (meaning_iff.mpr rfl)⟩
  · exact ⟨_, named_parse_of_not_announced (not_exists.mp h)⟩

/-- With the empty separator a directive is read as it should be where it should be refused. -/
theorem named_parse_nil_iff (hsep : d.qualifierSeparator = "")
    (h : Announced d.directivePrefix name rest) :
    Named d name (parse name d) ↔ rest ∉ keys.map String.toList := by
  rw [parse_of_announced h, hsep, String.toList_empty, ofKey_nil]
  constructor
  · intro hnamed hmem
    obtain ⟨key, qualifier, keyed⟩ := Keyed.exists d.qualifierSeparator.toList rest
    have hmeaning : Meaning name key qualifier (.error (.unknownDirective name)) := by
      cases hnamed with
      | directive announced keyed' meaning =>
        obtain rfl := h.unique announced
        obtain ⟨rfl, rfl⟩ := keyed.unique keyed'
        exact meaning
    rw [hsep, String.toList_empty, keyed_nil_iff] at keyed
    obtain ⟨rfl, rfl⟩ := keyed
    cases hmeaning with
    | unknown hnot => exact hnot hmem
  · intro hnot
    refine .directive h ?_ (.unknown hnot none)
    rw [hsep]
    exact .bare (.inl rfl)

/-- **Every name stands for one thing in every dialect, and it is parsed to that thing unless the
separator is empty and the name is the prefix with one of the three keys; with the empty separator
every name with the prefix is refused.** -/
theorem named_parse_iff (name : String) (d : Dialect) :
    (∃! result, Named d name result) ∧
      (Named d name (parse name d) ↔
        ¬ (d.qualifierSeparator = "" ∧ d.directivePrefix ≠ "" ∧
          ∃ key ∈ keys, name = d.directivePrefix ++ key)) ∧
      (d.qualifierSeparator = "" → ∀ rest, Announced d.directivePrefix name rest →
        parse name d = .error (.unknownDirective name)) := by
  refine ⟨?_, ?_, ?_⟩
  · obtain ⟨result, hnamed⟩ := Named.exists d name
    exact ⟨result, hnamed, fun _ h => h.unique hnamed⟩
  · by_cases h : ∃ rest, Announced d.directivePrefix name rest
    · obtain ⟨rest, announced⟩ := h
      by_cases hsep : d.qualifierSeparator = ""
      · rw [named_parse_nil_iff hsep announced]
        refine not_congr ?_
        have hkeys : rest ∈ keys.map String.toList ↔
            ∃ key ∈ keys, name = d.directivePrefix ++ key := by
          simp only [List.mem_map, ← String.toList_inj, String.toList_append, announced.spelled,
            List.append_cancel_left_eq, eq_comm]
        simpa [hsep, announced.nonempty] using hkeys
      · refine iff_of_true ?_ fun hfails => hsep hfails.1
        obtain ⟨key, qualifier, keyed⟩ := Keyed.exists d.qualifierSeparator.toList rest
        rw [parse_of_announced announced]
        exact .directive announced keyed (meaning_ofKey (by simpa using hsep) keyed)
    · refine iff_of_true (named_parse_of_not_announced (not_exists.mp h)) ?_
      rintro ⟨-, hne, key, -, rfl⟩
      exact h ⟨key.toList, hne, String.toList_append⟩
  · intro hsep rest announced
    rw [parse_of_announced announced, hsep, String.toList_empty, ofKey_nil]

end Parsed

/-- The standard tokens, but no separator. -/
def unseparated : Dialect := { Dialect.standard with qualifierSeparator := "" }

theorem named_parse_unseparated :
    parse "v-model" unseparated = .error (.unknownDirective "v-model") ∧
      ¬ Named unseparated "v-model" (parse "v-model" unseparated) := by
  obtain ⟨-, hiff, hrefused⟩ := named_parse_iff "v-model" unseparated
  refine ⟨hrefused rfl "model".toList ⟨by decide, by decide⟩, fun hnamed => ?_⟩
  exact hiff.mp hnamed ⟨rfl, by decide, "model", by decide, by decide⟩

/-- What is a model by the grammar is refused. -/
theorem parse_model_refused :
    Named unseparated "v-model" (.ok (some .model)) ∧
      parse "v-model" unseparated = .error (.unknownDirective "v-model") := by
  have announced : Announced unseparated.directivePrefix "v-model" "model".toList :=
    ⟨by decide, by decide⟩
  exact ⟨.directive announced (.bare (.inl rfl)) (.model none), by decide +kernel⟩

end Directive

end DataBinding
