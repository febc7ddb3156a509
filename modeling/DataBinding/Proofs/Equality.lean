import DataBinding.Heap.Text

/-!
# Strict equality

Strict equality of numbers forgets the sign of zero and excludes NaN, and is ordinary equality
otherwise. It is symmetric and transitive, and the page shows strictly equal scalars as the same
text: zero and minus zero are both spelled `0`.
-/

namespace DataBinding

namespace Decimal

open Float.Model

/-- Equal in the comparison of numbers means equal, but for the sign of zero. -/
theorem eq_of_compare_eq {a b : UnpackedFloat} (h : a.compare b = some .eq) :
    a = b ∨ ∃ s s', a = .zero s ∧ b = .zero s' := by
  -- values of different kinds or signs are never equal, but for the two zeros
  cases a with
  | notANumber => cases h
  | infinity s =>
    cases b with
    | infinity s' =>
      cases s <;> cases s'
      · exact .inl rfl
      · cases h
      · cases h
      · exact .inl rfl
    | _ => cases s <;> cases h
  | zero s =>
    cases b with
    | zero s' => exact .inr ⟨s, s', rfl, rfl⟩
    | infinity s' => cases s' <;> cases h
    | finite s' => cases s' <;> cases h
    | notANumber => cases h
  | finite s m e hm =>
    refine .inl ?_
    cases b with
    | finite s' m' e' hm' =>
      cases s <;> cases s'
      · obtain ⟨rfl, rfl⟩ : e = e' ∧ m = m' := by
          simpa only [Option.some.injEq, Ordering.swap_eq_eq, Ordering.then_eq_eq,
            Std.compare_eq_iff_eq] using Option.some.inj h
        rfl
      · cases h
      · cases h
      · obtain ⟨rfl, rfl⟩ : e = e' ∧ m = m' := by
          simpa only [Ordering.then_eq_eq, Std.compare_eq_iff_eq] using Option.some.inj h
        rfl
    | infinity s' => cases s <;> cases s' <;> cases h
    | zero s' => cases s <;> cases h
    | notANumber => cases s <;> cases h

theorem compare_eq_of_eq_symm {a b : UnpackedFloat} (h : a.compare b = some .eq) :
    b.compare a = some .eq := by
  rcases eq_of_compare_eq h with rfl | ⟨s, s', rfl, rfl⟩
  · exact h
  · rfl

theorem beq_iff_compare {x y : Float} :
    (x == y) = true ↔ x.toModel.unpack.compare y.toModel.unpack = some .eq := by
  show (x.toModel.unpack.compare y.toModel.unpack == some Ordering.eq) = true ↔ _
  exact beq_iff_eq

theorem beq_symm {x y : Float} (h : (x == y) = true) : (y == x) = true :=
  beq_iff_compare.mpr (compare_eq_of_eq_symm (beq_iff_compare.mp h))

theorem beq_trans {x y z : Float} (hxy : (x == y) = true) (hyz : (y == z) = true) :
    (x == z) = true := by
  rw [beq_iff_compare] at hxy hyz ⊢
  rcases eq_of_compare_eq hxy with heq | ⟨s, s', hx, hy⟩
  · rw [heq]
    exact hyz
  · rcases eq_of_compare_eq hyz with heq | ⟨t, t', hy', hz⟩
    · rw [← heq]
      exact hxy
    · rw [hx, hz]
      rfl

/-- A format that hides the sign of zero spells equal numbers alike. -/
theorem NumberFormat.text_of_beq {f : NumberFormat} (hf : f.zero = f.minusZero) {x y : Float}
    (h : (x == y) = true) : f.text x = f.text y := by
  unfold NumberFormat.text
  rcases eq_of_compare_eq (beq_iff_compare.mp h) with heq | ⟨s, s', hx, hy⟩
  · rw [heq]
  · rw [hx, hy]
    cases s <;> cases s' <;> simp [hf]

end Decimal

namespace Value

/-- Whether a value has nothing behind it. -/
def isScalar : Value → Bool
  | array _ _ => false
  | object _ => false
  | _ => true

theorem strictEq_symm {a b : Value} (h : a.strictEq b = true) : b.strictEq a = true := by
  cases a <;> cases b <;> simp only [strictEq, reduceCtorEq, beq_iff_eq] at h ⊢
  case number.number => exact Decimal.beq_symm h
  all_goals exact h.symm

theorem strictEq_trans {a b c : Value} (hab : a.strictEq b = true) (hbc : b.strictEq c = true) :
    a.strictEq c = true := by
  cases a <;> cases b <;> simp only [strictEq, reduceCtorEq, beq_iff_eq] at hab <;>
    cases c <;> simp only [strictEq, reduceCtorEq, beq_iff_eq] at hbc ⊢
  case number.number.number => exact Decimal.beq_trans hab hbc
  all_goals exact hab.trans hbc

/-- A value is strictly equal to itself, unless it is NaN. -/
theorem strictEq_of_strictEq {a b : Value} (h : a.strictEq b = true) : a.strictEq a = true :=
  strictEq_trans h (strictEq_symm h)

end Value

namespace Heap

variable {κ : Type}

/-- The text of a scalar does not depend on the heap. -/
theorem text_of_isScalar (h h' : Heap κ) {v : Value} (hv : v.isScalar = true) :
    h.text v = h'.text v := by
  cases v with
  | null | bool | number | text => rfl
  | array | object => simp [Value.isScalar] at hv

/-- The page shows strictly equal scalars alike. -/
theorem text_of_strictEq (h : Heap κ) {a b : Value} (ha : a.isScalar = true)
    (hab : a.strictEq b = true) : h.text a = h.text b := by
  cases a <;> cases b <;> simp only [Value.strictEq, reduceCtorEq, beq_iff_eq] at hab
  case null.null => rfl
  case bool.bool => rw [hab]
  case number.number => exact Decimal.NumberFormat.text_of_beq rfl hab
  case text.text => rw [hab]
  all_goals simp [Value.isScalar] at ha

end Heap

end DataBinding
