import DataBinding.Proofs.Accesses
import Mathlib.Data.List.Chain

/-!
# Templates as tokens

A source is taken apart from the left: a token goes up to the first opening delimiter and from there
to the first closing one. `Token.Splits` says this without a search, as a way to write the source
down again. There is one such way only, and `Token.scan` finds it.

The segments of a template are what the tokens spell. `Segment.spelled` spells a segment out, with a
marker as one letter; where no literal is empty and no two of them are adjacent (`Segment.Joined`),
the spelling determines the segments, so every literal is a whole run of text.
-/

namespace DataBinding

namespace Text

/-- In `before` followed by `pat`, the first occurrence of `pat` is the one at the end. -/
def FirstAfter (pat before : List Char) : Prop :=
  ∀ u v, before ++ pat = u ++ pat ++ v → before.length ≤ u.length

theorem firstAfter_nil (pat : List Char) : FirstAfter pat [] := fun _ _ _ => Nat.zero_le _

theorem FirstAfter.tail {pat before : List Char} {c : Char} (h : FirstAfter pat (c :: before)) :
    FirstAfter pat before := by
  intro u v heq
  have hle := h (c :: u) v (by rw [List.cons_append, heq, List.cons_append, List.cons_append])
  simpa using hle

theorem cut?_of_isPrefixOf {pat cs : List Char} (h : pat.isPrefixOf cs = true) :
    cut? pat cs = some ([], cs.drop pat.length) := by
  unfold cut?
  rw [if_pos h]

theorem cut?_cons_of_not_isPrefixOf {pat cs : List Char} {c : Char}
    (h : ¬ pat.isPrefixOf (c :: cs) = true) :
    cut? pat (c :: cs) = (cut? pat cs).map fun parts => (c :: parts.1, parts.2) := by
  rw [cut?, if_neg h]

theorem firstAfter_of_cut? {pat cs before after : List Char}
    (h : cut? pat cs = some (before, after)) : FirstAfter pat before := by
  induction cs generalizing before with
  | nil =>
    obtain ⟨rfl, -⟩ := List.append_eq_nil_iff.mp
      (List.append_eq_nil_iff.mp (append_of_cut? h).symm).1
    exact firstAfter_nil pat
  | cons c rest ih =>
    by_cases hp : pat.isPrefixOf (c :: rest) = true
    · rw [cut?_of_isPrefixOf hp] at h
      obtain ⟨rfl, -⟩ := Prod.mk.inj (Option.some.inj h)
      exact firstAfter_nil pat
    · have hcs := append_of_cut? h
      rw [cut?_cons_of_not_isPrefixOf hp] at h
      obtain ⟨parts, hparts, heq⟩ := Option.map_eq_some_iff.mp h
      obtain ⟨rfl, rfl⟩ := Prod.mk.inj heq
      intro u v hu
      cases u with
      | nil =>
        -- an occurrence at the very start would have been found there
        refine absurd (List.isPrefixOf_iff_prefix.mpr ⟨v ++ parts.2, ?_⟩) hp
        rw [hcs, hu, List.nil_append, List.append_assoc]
      | cons a u =>
        rw [List.cons_append, List.cons_append, List.cons_append, List.cons.injEq] at hu
        have hle := ih hparts u v hu.2
        simpa using hle

theorem cut?_of_firstAfter {pat before : List Char} (h : FirstAfter pat before)
    (after : List Char) : cut? pat (before ++ pat ++ after) = some (before, after) := by
  induction before with
  | nil =>
    have hp : pat.isPrefixOf ([] ++ pat ++ after) = true :=
      List.isPrefixOf_iff_prefix.mpr (List.prefix_append pat after)
    rw [cut?_of_isPrefixOf hp, List.nil_append, List.drop_left]
  | cons c rest ih =>
    have hp : ¬ pat.isPrefixOf (c :: (rest ++ pat ++ after)) = true := by
      intro hp
      -- what fits at the start fits before `after` begins
      have hshort : pat <+: c :: rest ++ pat :=
        List.prefix_of_prefix_length_le (List.isPrefixOf_iff_prefix.mp hp)
          ⟨after, rfl⟩ (by simp only [List.length_append]; omega)
      obtain ⟨v, hv⟩ := hshort
      have hle := h [] v (by rw [List.nil_append, hv])
      simp at hle
    have hcons : c :: rest ++ pat ++ after = c :: (rest ++ pat ++ after) := rfl
    rw [hcons, cut?_cons_of_not_isPrefixOf hp, ih h.tail]
    rfl

theorem cut?_eq_none_iff {pat cs : List Char} :
    cut? pat cs = none ↔ ∀ u v, cs ≠ u ++ pat ++ v := by
  constructor
  · intro h
    induction cs with
    | nil =>
      rintro u v heq
      obtain ⟨hu, -⟩ := List.append_eq_nil_iff.mp heq.symm
      obtain ⟨-, rfl⟩ := List.append_eq_nil_iff.mp hu
      cases h
    | cons c rest ih =>
      by_cases hp : pat.isPrefixOf (c :: rest) = true
      · rw [cut?_of_isPrefixOf hp] at h
        cases h
      · rw [cut?_cons_of_not_isPrefixOf hp, Option.map_eq_none_iff] at h
        rintro u v heq
        cases u with
        | nil =>
          refine hp (List.isPrefixOf_iff_prefix.mpr ⟨v, ?_⟩)
          rw [heq, List.nil_append]
        | cons a u =>
          rw [List.cons_append, List.cons_append, List.cons.injEq] at heq
          exact ih h u v heq.2
  · intro h
    cases hcut : cut? pat cs with
    | none => rfl
    | some parts => exact absurd (append_of_cut? hcut) (h parts.1 parts.2)

end Text

namespace Token

variable {opening closing : List Char}

theorem first?_eq_bind (ho : opening ≠ []) (hc : closing ≠ []) (cs : List Char) :
    first? opening closing cs =
      (Text.cut? opening cs).bind fun opened =>
        (Text.cut? closing opened.2).map fun closed => (Token.mk opened.1 closed.1, closed.2) := by
  rw [first?, if_neg (by simp [ho, hc])]
  cases Text.cut? opening cs with
  | none => rfl
  | some opened =>
    dsimp only [Option.bind_some]
    cases hclosed : Text.cut? closing opened.2 with
    | none => rfl
    | some closed => rfl

theorem first?_eq_some_iff (ho : opening ≠ []) (hc : closing ≠ []) {cs rest : List Char}
    {t : Token} :
    first? opening closing cs = some (t, rest) ↔
      cs = t.source opening closing ++ rest ∧ Text.FirstAfter opening t.before ∧
        Text.FirstAfter closing t.inner := by
  constructor
  · intro h
    refine ⟨source_append_of_first? h, ?_⟩
    rw [first?_eq_bind ho hc] at h
    obtain ⟨opened, hopened, h⟩ := Option.bind_eq_some_iff.mp h
    obtain ⟨closed, hclosed, heq⟩ := Option.map_eq_some_iff.mp h
    obtain ⟨rfl, -⟩ := Prod.mk.inj heq
    exact ⟨Text.firstAfter_of_cut? hopened, Text.firstAfter_of_cut? hclosed⟩
  · rintro ⟨rfl, hopens, hcloses⟩
    have hsource : t.source opening closing ++ rest =
        t.before ++ opening ++ (t.inner ++ closing ++ rest) := by
      simp [source]
    rw [first?_eq_bind ho hc, hsource, Text.cut?_of_firstAfter hopens, Option.bind_some,
      Text.cut?_of_firstAfter hcloses]
    rfl

/-- No token is found where, and only where, no opening delimiter is ever closed. -/
theorem first?_eq_none_iff (ho : opening ≠ []) (hc : closing ≠ []) {cs : List Char} :
    first? opening closing cs = none ↔ ∀ u v w, cs ≠ u ++ opening ++ v ++ closing ++ w := by
  constructor
  · intro h u v w hcs
    rw [first?_eq_bind ho hc] at h
    cases hcut : Text.cut? opening cs with
    | none =>
      refine Text.cut?_eq_none_iff.mp hcut u (v ++ closing ++ w) ?_
      simp [hcs]
    | some opened =>
      obtain ⟨before, after⟩ := opened
      rw [hcut, Option.bind_some, Option.map_eq_none_iff] at h
      -- the opening delimiter in `cs` stands behind the first one, so all after it is in `after`
      have hbefore := Text.append_of_cut? hcut
      have hle : before.length ≤ u.length := by
        refine Nat.le_of_not_lt fun hlt => ?_
        have hu : u ++ opening <+: cs := ⟨v ++ closing ++ w, by simp [hcs]⟩
        have hfirst : before ++ opening <+: cs := ⟨after, hbefore.symm⟩
        obtain ⟨v', hv'⟩ := List.prefix_of_prefix_length_le hu hfirst (by
          simp only [List.length_append]
          omega)
        exact absurd (Text.firstAfter_of_cut? hcut u v' hv'.symm) (Nat.not_le_of_lt hlt)
      have hlate : v ++ closing ++ w <:+ cs := ⟨u ++ opening, by simp [hcs]⟩
      have hafter : after <:+ cs := ⟨before ++ opening, hbefore.symm⟩
      have hlength := congrArg List.length (hcs.symm.trans hbefore)
      obtain ⟨x, hx⟩ := List.suffix_of_suffix_length_le hlate hafter (by
        simp only [List.length_append] at hlength ⊢
        omega)
      refine Text.cut?_eq_none_iff.mp h (x ++ v) w ?_
      simp [← hx]
  · intro h
    cases hfirst : first? opening closing cs with
    | none => rfl
    | some found =>
      obtain ⟨t, rest⟩ := found
      refine absurd (source_append_of_first? hfirst) ?_
      simpa [source] using h t.before t.inner rest

theorem scan_of_first?_eq_none {cs : List Char} (h : first? opening closing cs = none) :
    scan opening closing cs = ([], cs) := by
  rw [scan]
  split
  · rfl
  · next hsome =>
    rw [h] at hsome
    cases hsome

theorem scan_of_first?_eq_some {cs rest : List Char} {t : Token}
    (h : first? opening closing cs = some (t, rest)) :
    scan opening closing cs =
      (t :: (scan opening closing rest).1, (scan opening closing rest).2) := by
  rw [scan]
  split
  · next hnone =>
    rw [h] at hnone
    cases hnone
  · next hsome =>
    rw [h] at hsome
    obtain ⟨rfl, rfl⟩ := Prod.mk.inj (Option.some.inj hsome)
    rfl

/-- A source written down as tokens and a tail, leftmost and shortest tokens first. -/
structure Splits (opening closing : List Char) (tokens : List Token) (tail cs : List Char) :
    Prop where
  /-- Nothing of the source is lost. -/
  source_eq : cs = tokens.flatMap (source opening closing) ++ tail
  /-- Before a token opens there is no opening delimiter. -/
  opens : ∀ t ∈ tokens, Text.FirstAfter opening t.before
  /-- Inside a token there is no closing delimiter. -/
  closes : ∀ t ∈ tokens, Text.FirstAfter closing t.inner
  /-- No opening delimiter of the tail is ever closed. -/
  ends : ∀ u v w, tail ≠ u ++ opening ++ v ++ closing ++ w

theorem splits_scan (ho : opening ≠ []) (hc : closing ≠ []) (cs : List Char) :
    Splits opening closing (scan opening closing cs).1 (scan opening closing cs).2 cs := by
  fun_induction scan opening closing cs with
  | case1 cs h => exact ⟨rfl, by simp, by simp, (first?_eq_none_iff ho hc).mp h⟩
  | case2 cs t rest h _ found ih =>
    obtain ⟨hcs, hopens, hcloses⟩ := (first?_eq_some_iff ho hc).mp h
    refine ⟨?_, ?_, ?_, ih.ends⟩
    · rw [List.flatMap_cons, List.append_assoc, ← ih.source_eq, hcs]
    · exact List.forall_mem_cons.mpr ⟨hopens, ih.opens⟩
    · exact List.forall_mem_cons.mpr ⟨hcloses, ih.closes⟩

/-- There is one way only to take a source apart. -/
theorem Splits.scan_eq (ho : opening ≠ []) (hc : closing ≠ []) {tokens : List Token}
    {tail cs : List Char} (h : Splits opening closing tokens tail cs) :
    scan opening closing cs = (tokens, tail) := by
  induction tokens generalizing cs with
  | nil =>
    obtain rfl : cs = tail := by simpa using h.source_eq
    exact scan_of_first?_eq_none ((first?_eq_none_iff ho hc).mpr h.ends)
  | cons t rest ih =>
    have hrest : Splits opening closing rest tail (rest.flatMap (source opening closing) ++ tail) :=
      ⟨rfl, fun t ht => h.opens t (List.mem_cons_of_mem _ ht),
        fun t ht => h.closes t (List.mem_cons_of_mem _ ht), h.ends⟩
    have hsome : first? opening closing cs =
        some (t, rest.flatMap (source opening closing) ++ tail) := by
      refine (first?_eq_some_iff ho hc).mpr
        ⟨?_, h.opens t List.mem_cons_self, h.closes t List.mem_cons_self⟩
      rw [h.source_eq, List.flatMap_cons, List.append_assoc]
    rw [scan_of_first?_eq_some hsome, ih hrest]

/-- Without delimiters everything is the tail. -/
theorem scan_of_isEmpty (h : opening = [] ∨ closing = []) (cs : List Char) :
    scan opening closing cs = ([], cs) := by
  have hnone : first? opening closing cs = none := by
    rw [first?, if_pos (by simpa using h)]
  exact scan_of_first?_eq_none hnone

end Token

/-! ## Where the source is cut -/

/-- How many bytes characters take. -/
def Text.bytes (cs : List Char) : Nat := (String.ofList cs).utf8ByteSize

theorem Text.bytes_append (cs cs' : List Char) : bytes (cs ++ cs') = bytes cs + bytes cs' := by
  simp [bytes, String.ofList_append]

/-- The offsets, in bytes, at which a source is cut when its tokens start at `start`: before and
after each opening delimiter and before and after each closing one. -/
def Token.cuts (opening closing : List Char) (start : Nat) : List Token → List Nat
  | [] => []
  | t :: rest =>
    let opened := start + Text.bytes t.before
    let inside := opened + Text.bytes opening
    let closed := inside + Text.bytes t.inner
    let next := closed + Text.bytes closing
    opened :: inside :: closed :: next :: cuts opening closing next rest

theorem Text.isValid_bytes (cs cs' : List Char) :
    String.Pos.Raw.IsValid (String.ofList (cs ++ cs')) ⟨bytes cs⟩ :=
  String.Pos.Raw.isValid_iff_exists_append.mpr
    ⟨String.ofList cs, String.ofList cs', String.ofList_append, rfl⟩

/-- Every cut falls between two characters. -/
theorem Token.isValid_of_mem_cuts {opening closing : List Char} {tokens : List Token}
    {offset : Nat} (before tail : List Char)
    (h : offset ∈ cuts opening closing (Text.bytes before) tokens) :
    String.Pos.Raw.IsValid
      (String.ofList (before ++ (tokens.flatMap (source opening closing) ++ tail))) ⟨offset⟩ := by
  induction tokens generalizing before with
  | nil => cases h
  | cons t rest ih =>
    have hvalid (front back : List Char)
        (heq : front ++ back =
          before ++ ((t :: rest).flatMap (source opening closing) ++ tail)) :
        String.Pos.Raw.IsValid (String.ofList
          (before ++ ((t :: rest).flatMap (source opening closing) ++ tail)))
          ⟨Text.bytes front⟩ := by
      rw [← heq]
      exact Text.isValid_bytes front back
    simp only [cuts, ← Text.bytes_append, List.mem_cons] at h
    -- what stands behind the cut, from the front of the token to its end
    let later := rest.flatMap (source opening closing) ++ tail
    rcases h with rfl | rfl | rfl | rfl | h
    · exact hvalid _ (opening ++ (t.inner ++ (closing ++ later))) (by simp [source, later])
    · exact hvalid _ (t.inner ++ (closing ++ later)) (by simp [source, later])
    · exact hvalid _ (closing ++ later) (by simp [source, later])
    · exact hvalid _ later (by simp [source, later])
    · have hrest := ih _ h
      simpa [source] using hrest

/-- Bytes of a text that is not empty are never found inside a character. -/
theorem Text.isValid_of_extract {pat source : String} (hpat : pat ≠ "") {offset : Nat}
    (h : source.toByteArray.extract offset (offset + pat.utf8ByteSize) = pat.toByteArray) :
    String.Pos.Raw.IsValid source ⟨offset⟩ ∧
      String.Pos.Raw.IsValid source ⟨offset + pat.utf8ByteSize⟩ := by
  have hpos : 0 < pat.utf8ByteSize :=
    Nat.pos_of_ne_zero fun hzero => hpat (String.utf8ByteSize_eq_zero_iff.mp hzero)
  have hsize := congrArg ByteArray.size h
  rw [ByteArray.size_extract, String.size_toByteArray, String.size_toByteArray] at hsize
  have hfits : offset + pat.utf8ByteSize ≤ source.utf8ByteSize := by omega
  -- the first byte found is the first byte of a character
  have hfirst : String.Pos.Raw.IsValid source ⟨offset⟩ := by
    have hlt : (⟨offset⟩ : String.Pos.Raw) < source.rawEndPos := by
      rw [String.Pos.Raw.lt_iff, String.byteIdx_rawEndPos]
      show offset < _
      omega
    refine String.Pos.Raw.isValid_iff_isUTF8FirstByte.mpr (.inr ⟨hlt, ?_⟩)
    have hzero : (0 : String.Pos.Raw) < pat.rawEndPos := by
      rw [String.Pos.Raw.lt_iff, String.byteIdx_rawEndPos]
      exact hpos
    have hbyte : source.getUTF8Byte ⟨offset⟩ hlt = pat.getUTF8Byte 0 hzero := by
      simp only [String.getUTF8Byte, ← h, ByteArray.getElem_extract]
      rfl
    rw [hbyte]
    exact String.isUTF8FirstByte_getUTF8Byte_zero
  refine ⟨hfirst, String.Pos.Raw.isValid_iff_isValidUTF8_extract_zero.mpr ⟨?_, ?_⟩⟩
  · rw [String.Pos.Raw.le_iff, String.byteIdx_rawEndPos]
    exact hfits
  · -- up to its end there are the characters before it and its own
    have hsplit : source.toByteArray.extract 0 (offset + pat.utf8ByteSize) =
        source.toByteArray.extract 0 offset ++ pat.toByteArray := by
      rw [← h]
      exact ByteArray.extract_eq_extract_append_extract offset (Nat.zero_le _)
        (Nat.le_add_right _ _)
    show (source.toByteArray.extract 0 (offset + pat.utf8ByteSize)).IsValidUTF8
    rw [hsplit]
    exact hfirst.isValidUTF8_extract_zero.append pat.isValidUTF8

/-! ## What the tokens spell -/

namespace Segment

/-- A segment spelled out: text by its characters, a marker as a letter of its own. -/
def spelled : Segment → List (Char ⊕ String)
  | literal text => text.toList.map .inl
  | marker key => [.inr key]

/-- Segments whose text is in one piece wherever it can be: no literal is empty and no two are
adjacent. -/
structure Joined (segments : List Segment) : Prop where
  literal_ne : ∀ text, .literal text ∈ segments → text ≠ ""
  apart : segments.IsChain fun s s' => s.key?.isSome ∨ s'.key?.isSome

theorem Joined.tail {s : Segment} {rest : List Segment} (h : Joined (s :: rest)) : Joined rest :=
  ⟨fun text ht => h.literal_ne text (List.mem_cons_of_mem s ht), h.apart.tail⟩

/-- After a literal the spelling does not go on with text. -/
theorem Joined.head?_ne {text : String} {rest : List Segment} (h : Joined (.literal text :: rest))
    (c : Char) : (rest.flatMap spelled).head? ≠ some (.inl c) := by
  cases rest with
  | nil => simp
  | cons s rest =>
    cases s with
    | literal text' =>
      have hapart := (List.isChain_cons_cons.mp h.apart).1
      simp [key?] at hapart
    | marker key => simp [spelled]

/-- Two texts are the same when what is spelled after them does not go on with text. -/
theorem run_eq {cs cs' : List Char} {x x' : List (Char ⊕ String)}
    (hx : ∀ c, x.head? ≠ some (.inl c)) (hx' : ∀ c, x'.head? ≠ some (.inl c))
    (h : cs.map .inl ++ x = cs'.map .inl ++ x') : cs = cs' ∧ x = x' := by
  induction cs generalizing cs' with
  | nil =>
    cases cs' with
    | nil => exact ⟨rfl, h⟩
    | cons c' cs' =>
      rw [List.map_nil, List.nil_append] at h
      exact absurd (by rw [h]; rfl) (hx c')
  | cons c cs ih =>
    cases cs' with
    | nil =>
      rw [List.map_nil, List.nil_append] at h
      exact absurd (by rw [← h]; rfl) (hx' c)
    | cons c' cs' =>
      rw [List.map_cons, List.map_cons, List.cons_append, List.cons_append, List.cons.injEq] at h
      obtain ⟨rfl, hx⟩ := ih h.2
      exact ⟨by rw [Sum.inl.inj h.1], hx⟩

theorem Joined.head?_literal {text : String} {rest : List Segment}
    (h : Joined (.literal text :: rest)) :
    ∃ c, ((.literal text :: rest : List Segment).flatMap spelled).head? = some (.inl c) := by
  have hne : text.toList ≠ [] := by
    simpa using h.literal_ne text List.mem_cons_self
  obtain ⟨c, cs, hcs⟩ := List.exists_cons_of_ne_nil hne
  exact ⟨c, by simp [spelled, hcs]⟩

theorem Joined.flatMap_spelled_ne_nil {s : Segment} {rest : List Segment}
    (h : Joined (s :: rest)) : (s :: rest).flatMap spelled ≠ [] := by
  cases s with
  | literal text =>
    obtain ⟨c, hc⟩ := h.head?_literal
    rintro hnil
    rw [hnil] at hc
    cases hc
  | marker key => simp [spelled]

/-- Joined segments are known by their spelling. -/
theorem Joined.eq_of_spelled {segments segments' : List Segment} (h : Joined segments)
    (h' : Joined segments') (heq : segments.flatMap spelled = segments'.flatMap spelled) :
    segments = segments' := by
  induction segments generalizing segments' with
  | nil =>
    cases segments' with
    | nil => rfl
    | cons s' rest' => exact absurd heq.symm h'.flatMap_spelled_ne_nil
  | cons s rest ih =>
    cases segments' with
    | nil => exact absurd heq h.flatMap_spelled_ne_nil
    | cons s' rest' =>
      cases s with
      | literal text =>
        cases s' with
        | literal text' =>
          obtain ⟨htext, hrest⟩ := run_eq h.head?_ne h'.head?_ne heq
          rw [ih h.tail h'.tail hrest, String.toList_inj.mp htext]
        | marker key' =>
          obtain ⟨c, hc⟩ := h.head?_literal
          rw [heq] at hc
          cases hc
      | marker key =>
        cases s' with
        | literal text' =>
          obtain ⟨c, hc⟩ := h'.head?_literal
          rw [← heq] at hc
          cases hc
        | marker key' =>
          obtain ⟨hkey, hrest⟩ := List.cons.inj heq
          rw [ih h.tail h'.tail hrest, Sum.inr.inj hkey]

theorem ofText_eq (cs : List Char) :
    ofText cs = [] ∧ cs = [] ∨ ofText cs = [.literal (String.ofList cs)] ∧ cs ≠ [] := by
  cases cs with
  | nil => exact .inl ⟨rfl, rfl⟩
  | cons c rest => exact .inr ⟨rfl, by simp⟩

theorem joined_ofText (cs : List Char) : Joined (ofText cs) := by
  rcases ofText_eq cs with ⟨htext, -⟩ | ⟨htext, hne⟩
  · rw [htext]
    exact ⟨by simp, .nil⟩
  · rw [htext]
    refine ⟨fun text ht => ?_, .singleton _⟩
    obtain rfl := Segment.literal.inj (List.mem_singleton.mp ht)
    simpa using hne

theorem Joined.ofText_marker {key : String} {rest : List Segment} (h : Joined rest)
    (cs : List Char) : Joined (ofText cs ++ .marker key :: rest) := by
  have hmarker : Joined (.marker key :: rest) := by
    refine ⟨fun text ht => h.literal_ne text (by simpa using ht), ?_⟩
    cases rest with
    | nil => exact .singleton _
    | cons s rest => exact List.isChain_cons_cons.mpr ⟨.inl rfl, h.apart⟩
  rcases ofText_eq cs with ⟨htext, -⟩ | ⟨htext, hne⟩
  · rw [htext]
    exact hmarker
  · rw [htext]
    refine ⟨fun text ht => ?_, List.isChain_cons_cons.mpr ⟨.inr rfl, hmarker.apart⟩⟩
    rcases List.mem_cons.mp ht with heq | ht
    · obtain rfl := Segment.literal.inj heq
      simpa using hne
    · exact hmarker.literal_ne text ht

theorem joined_ofTokens (opening closing literal : List Char) (tokens : List Token)
    (tail : List Char) : Joined (ofTokens opening closing literal tokens tail) := by
  induction tokens generalizing literal with
  | nil => exact joined_ofText _
  | cons t rest ih =>
    rw [ofTokens]
    split
    · exact ih _
    · exact (ih []).ofText_marker _

theorem flatMap_spelled_ofText (cs : List Char) : (ofText cs).flatMap spelled = cs.map .inl := by
  rcases ofText_eq cs with ⟨htext, hcs⟩ | ⟨htext, -⟩
  · rw [htext, hcs]
    rfl
  · rw [htext]
    simp [spelled]

end Segment

/-- The key that a token is the marker of. -/
def Token.key (t : Token) : String := String.ofList (Text.trimmed t.inner)

/-- A token spelled out: the text that leads up to it and its marker. A token with nothing inside
is text altogether. -/
def Token.spelled (opening closing : List Char) (t : Token) : List (Char ⊕ String) :=
  if t.inner = [] then (t.source opening closing).map .inl
  else t.before.map .inl ++ [.inr t.key]

theorem Segment.flatMap_spelled_ofTokens (opening closing literal : List Char)
    (tokens : List Token) (tail : List Char) :
    (ofTokens opening closing literal tokens tail).flatMap spelled =
      literal.map .inl ++ (tokens.flatMap (Token.spelled opening closing) ++ tail.map .inl) := by
  induction tokens generalizing literal with
  | nil =>
    rw [ofTokens, flatMap_spelled_ofText, List.map_append]
    rfl
  | cons t rest ih =>
    rw [ofTokens, List.flatMap_cons, Token.spelled]
    by_cases hinner : t.inner = []
    · rw [if_pos (by simpa using hinner), if_pos hinner, ih]
      simp
    · rw [if_neg (by simpa using hinner), if_neg hinner, List.flatMap_append,
        flatMap_spelled_ofText, List.flatMap_cons, ih]
      simp [spelled, Token.key]

/-- Text has no markers in it. -/
theorem Segment.filterMap_getRight?_inl (cs : List Char) :
    (cs.map (Sum.inl : Char → Char ⊕ String)).filterMap Sum.getRight? = [] := by
  simp

/-- The letters of a spelling that are not characters are the markers. -/
theorem Segment.filterMap_key?_eq (segments : List Segment) :
    segments.filterMap key? = (segments.flatMap spelled).filterMap Sum.getRight? := by
  induction segments with
  | nil => rfl
  | cons s rest ih =>
    rw [List.flatMap_cons, List.filterMap_append, ← ih]
    cases s with
    | literal text =>
      rw [spelled, filterMap_getRight?_inl]
      rfl
    | marker key => rfl

namespace Template

/-- The segments of a template are what its tokens and the tail spell, and nothing else is. -/
theorem segments_parse_eq_iff (source : String) (d : Dialect) (segments : List Segment) :
    (parse source d).segments = segments ↔
      Segment.Joined segments ∧ segments.flatMap Segment.spelled =
        (Token.scan d.opening.toList d.closing.toList source.toList).1.flatMap
          (Token.spelled d.opening.toList d.closing.toList) ++
        (Token.scan d.opening.toList d.closing.toList source.toList).2.map .inl := by
  have hjoined : Segment.Joined (parse source d).segments := Segment.joined_ofTokens _ _ _ _ _
  have hspelled := Segment.flatMap_spelled_ofTokens d.opening.toList d.closing.toList []
    (Token.scan d.opening.toList d.closing.toList source.toList).1
    (Token.scan d.opening.toList d.closing.toList source.toList).2
  constructor
  · rintro rfl
    exact ⟨hjoined, hspelled⟩
  · rintro ⟨hsegments, heq⟩
    exact hjoined.eq_of_spelled hsegments (hspelled.trans heq.symm)

/-- The markers are the tokens with something inside, in order. -/
theorem markers_parse (source : String) (d : Dialect) :
    (parse source d).markers =
      ((Token.scan d.opening.toList d.closing.toList source.toList).1.filter
        fun t => !t.inner.isEmpty).map Token.key := by
  have hspelled := ((segments_parse_eq_iff source d _).mp rfl).2
  rw [markers, Segment.filterMap_key?_eq, hspelled, List.filterMap_append,
    Segment.filterMap_getRight?_inl, List.append_nil]
  induction (Token.scan d.opening.toList d.closing.toList source.toList).1 with
  | nil => rfl
  | cons t rest ih =>
    rw [List.flatMap_cons, List.filterMap_append, ih, Token.spelled]
    by_cases hinner : t.inner = []
    · simp [hinner]
    · simp [hinner]

theorem detect_eq_true_iff (source : String) (d : Dialect) :
    detect source d = true ↔
      ∃ t ∈ (Token.scan d.opening.toList d.closing.toList source.toList).1, t.inner ≠ [] := by
  rw [← Bool.not_eq_false, detect_eq_false, markers_parse, List.map_eq_nil_iff,
    List.filter_eq_nil_iff]
  simp

/-- An empty delimiter leaves the source as it is. -/
theorem segments_parse_of_empty {d : Dialect} (h : d.opening = "" ∨ d.closing = "")
    (source : String) :
    (parse source d).segments = if source = "" then [] else [.literal source] := by
  have hempty : d.opening.toList = [] ∨ d.closing.toList = [] := by
    simpa using h
  have hsegments : (parse source d).segments = Segment.ofText source.toList := by
    show Segment.ofTokens _ _ [] (Token.scan _ _ _).1 (Token.scan _ _ _).2 = _
    rw [Token.scan_of_isEmpty hempty]
    rfl
  rw [hsegments, Segment.ofText, String.ofList_toList]
  by_cases hsource : source = ""
  · rw [if_pos (by simpa using hsource), if_pos hsource]
  · rw [if_neg (by simpa using hsource), if_neg hsource]

variable {κ σ : Type}

/-- Segments without markers render to their text and read nothing. -/
theorem renderSegments_of_no_markers (env : Env κ σ) (o : ObjectId) (w : World κ σ)
    {segments : List Segment} (h : segments.filterMap Segment.key? = []) :
    renderSegments env o segments w =
      some (segments.foldr (fun s text => s.filled id ++ text) "", w) := by
  induction segments with
  | nil => rfl
  | cons s rest ih =>
    cases s with
    | literal text =>
      have hrest := ih (by simpa [Segment.key?] using h)
      show (renderSegments env o rest w).bind (fun r => some (text ++ r.1, r.2)) = _
      rw [hrest]
      rfl
    | marker key => simp [Segment.key?] at h

theorem render_of_no_markers {source : String} {d : Dialect} (h : (parse source d).markers = [])
    (env : Env κ σ) (o : ObjectId) (w : World κ σ) :
    (parse source d).render env o w = some (source, w) := by
  rw [render, renderSegments_of_no_markers env o w h]
  exact congrArg (fun text => some (text, w)) (filled_parse id h)

/-- Parsing takes the source apart from the left, with the shortest tokens, and loses nothing.
The source is in one way only a row of tokens and a tail; no cut falls inside a character, nor does
the search for a delimiter end there; the markers are the tokens with something inside, and the
literals are the runs of text between them. A template without markers renders to its source. -/
theorem parse_splits_source (κ σ : Type) (source : String) (d : Dialect) :
    (d.opening ≠ "" ∧ d.closing ≠ "" →
      ∃ tokens tail,
        (∀ tokens' tail',
          Token.Splits d.opening.toList d.closing.toList tokens' tail' source.toList ↔
            tokens' = tokens ∧ tail' = tail) ∧
        (∀ offset ∈ Token.cuts d.opening.toList d.closing.toList 0 tokens,
          String.Pos.Raw.IsValid source ⟨offset⟩) ∧
        (∀ segments, (parse source d).segments = segments ↔
          Segment.Joined segments ∧ segments.flatMap Segment.spelled =
            tokens.flatMap (Token.spelled d.opening.toList d.closing.toList) ++
              tail.map .inl) ∧
        (parse source d).markers = (tokens.filter fun t => !t.inner.isEmpty).map Token.key ∧
        (detect source d = true ↔ ∃ t ∈ tokens, t.inner ≠ [])) ∧
    (∀ delimiter ∈ [d.opening, d.closing], delimiter ≠ "" → ∀ offset,
      source.toByteArray.extract offset (offset + delimiter.utf8ByteSize) =
          delimiter.toByteArray →
        String.Pos.Raw.IsValid source ⟨offset⟩ ∧
          String.Pos.Raw.IsValid source ⟨offset + delimiter.utf8ByteSize⟩) ∧
    (d.opening = "" ∨ d.closing = "" →
      (parse source d).segments = (if source = "" then [] else [.literal source]) ∧
        detect source d = false) ∧
    (detect source d = false → ∀ (env : Env κ σ) (o : ObjectId) (w : World κ σ),
      (parse source d).render env o w = some (source, w)) := by
  refine ⟨?_, ?_, ?_, ?_⟩
  · rintro ⟨ho, hc⟩
    have ho' : d.opening.toList ≠ [] := by simpa using ho
    have hc' : d.closing.toList ≠ [] := by simpa using hc
    -- the scan is one way to split the source, and there is no other
    have hsplits := Token.splits_scan ho' hc' source.toList
    refine ⟨_, _, fun tokens' tail' => ⟨fun h => ?_, ?_⟩, fun offset hoffset => ?_,
      segments_parse_eq_iff source d, markers_parse source d, detect_eq_true_iff source d⟩
    · rw [h.scan_eq ho' hc']
      exact ⟨rfl, rfl⟩
    · rintro ⟨rfl, rfl⟩
      exact hsplits
    · have hvalid := Token.isValid_of_mem_cuts []
        (Token.scan d.opening.toList d.closing.toList source.toList).2 hoffset
      rw [List.nil_append, ← hsplits.source_eq, String.ofList_toList] at hvalid
      exact hvalid
  · intro delimiter _ hne offset h
    exact Text.isValid_of_extract hne h
  · intro h
    have hsegments := segments_parse_of_empty h source
    refine ⟨hsegments, detect_eq_false.mpr ?_⟩
    rw [markers, hsegments]
    split <;> rfl
  · intro h env o w
    exact render_of_no_markers (detect_eq_false.mp h) env o w

/-- Of three braces in a row the first two open the marker. -/
theorem parse_splits_source_braces :
    (Dialect.standard.opening ≠ "" ∧ Dialect.standard.closing ≠ "") ∧
    (parse "\x7b\x7b\x7ba\x7d\x7d\x7d" .standard).segments =
      [.marker "\x7ba", .literal "\x7d"] ∧
    ∀ tokens tail,
      Token.Splits Dialect.standard.opening.toList Dialect.standard.closing.toList tokens tail
          "\x7b\x7b\x7ba\x7d\x7d\x7d".toList ↔
        tokens = [⟨[], ['\x7b', 'a']⟩] ∧ tail = ['\x7d'] := by
  have hdelimiters : Dialect.standard.opening ≠ "" ∧ Dialect.standard.closing ≠ "" := by decide
  have hbraces : Token.Splits Dialect.standard.opening.toList Dialect.standard.closing.toList
      [⟨[], ['\x7b', 'a']⟩] ['\x7d'] "\x7b\x7b\x7ba\x7d\x7d\x7d".toList := by
    refine ⟨by decide, ?_, ?_, fun u v w heq => ?_⟩
    · rintro t ht
      obtain rfl := List.mem_singleton.mp ht
      exact Text.firstAfter_nil _
    · rintro t ht
      obtain rfl := List.mem_singleton.mp ht
      have hcut : Text.cut? Dialect.standard.closing.toList ['\x7b', 'a', '\x7d', '\x7d'] =
          some (['\x7b', 'a'], []) := by decide
      exact Text.firstAfter_of_cut? hcut
    · -- the tail is too short for both delimiters
      have hlength := congrArg List.length heq
      simp only [List.length_append, List.length_singleton, Dialect.standard,
        String.length_toList] at hlength
      have hopening : ("\x7b\x7b" : String).length = 2 := rfl
      omega
  obtain ⟨tokens, tail, hsplits, -, hsegments, -⟩ :=
    (parse_splits_source Unit Unit "\x7b\x7b\x7ba\x7d\x7d\x7d" .standard).1 hdelimiters
  obtain ⟨rfl, rfl⟩ := (hsplits _ _).mp hbraces
  refine ⟨hdelimiters, (hsegments _).mpr ⟨⟨fun text htext => ?_, by decide⟩, by decide⟩, hsplits⟩
  obtain rfl : text = "\x7d" := by simpa using htext
  decide

end Template

end DataBinding
