import OpGraph.Proofs.ExactIntegers

/-!
# Integers survive their text

The text of a 64-bit integer is a minus sign, if there is one, and its decimal digits. Casting
such a text back to an integer takes the blanks off its ends, reads the sign and the digits,
and finds an integer in range, which is the one that was written
(`applyUnary_asInteger_text`). A text that is not read as an integer would be read as a double
and lose digits, and this never happens to the text of an integer.

There is one text of an integer, whichever way it is made: by converting a value to a string,
or by joining it to an empty one.
-/

namespace OpGraph

namespace Text

/-- There are only blanks in the text. -/
def Blank (s : String) : Prop := ∀ c ∈ s.toList, isBlank c = true

instance (s : String) : Decidable (Blank s) := List.decidableBAll _ _

theorem dropWhile_padded {pad cs rest : List Char} (hpad : ∀ c ∈ pad, isBlank c = true)
    (hcs : ∀ c ∈ cs, isBlank c = false) (hne : cs ≠ []) :
    (pad ++ (cs ++ rest)).dropWhile isBlank = cs ++ rest := by
  rw [List.dropWhile_append_of_pos hpad]
  cases cs with
  | nil => exact absurd rfl hne
  | cons c cs => rw [List.cons_append, List.dropWhile_cons_of_neg (by simp [hcs c (.head _)])]

/-- Blanks around a text that has none are all that is taken off. -/
theorem trim_padded {before cs after : List Char} (hbefore : ∀ c ∈ before, isBlank c = true)
    (hafter : ∀ c ∈ after, isBlank c = true) (hcs : ∀ c ∈ cs, isBlank c = false) (hne : cs ≠ []) :
    trim (before ++ (cs ++ after)) = cs := by
  have hback : (after.reverse ++ (cs.reverse ++ [])).dropWhile isBlank = cs.reverse ++ [] :=
    dropWhile_padded (by simpa using hafter) (by simpa using hcs) (by simpa using hne)
  rw [List.append_nil] at hback
  rw [trim, dropWhile_padded hbefore hcs hne, List.reverse_append, hback, List.reverse_reverse]

theorem isBlank_of_isDigit {c : Char} (h : c.isDigit = true) : isBlank c = false := by
  have hrange : 48 ≤ c.toNat ∧ c.toNat ≤ 57 := by
    simpa [Char.isDigit, UInt32.le_iff_toNat_le] using h
  simp only [isBlank, Bool.or_eq_false_iff, Bool.and_eq_false_iff, decide_eq_false_iff_not,
    beq_eq_false_iff_ne]
  omega

end Text

/-! ## Digits -/

namespace Decimal

theorem isDigit_of_mem_toDigits {n : Nat} {c : Char} (h : c ∈ Nat.toDigits 10 n) :
    c.isDigit = true :=
  Nat.isDigit_of_mem_toDigits (by decide) (by decide) h

theorem readDigits_toDigits (n : Nat) : readDigits (Nat.toDigits 10 n) = some n := by
  have hall : (Nat.toDigits 10 n).all Char.isDigit = true :=
    List.all_eq_true.2 fun _ => isDigit_of_mem_toDigits
  rw [readDigits, if_neg (by simp [Nat.toDigits_ne_nil]), if_pos hall,
    Nat.ofDigitChars_toDigits (by decide) (by decide)]

/-- The text of an integer is made of the digits of a natural number, with a minus in front of
them if the integer is negative. -/
theorem toList_toString (n : Int) : (toString n).toList =
    if 0 ≤ n then Nat.toDigits 10 n.toNat else '-' :: Nat.toDigits 10 (-n).toNat := by
  rw [Int.toString_eq_repr, Int.repr_eq_if]
  split
  · rw [Nat.toList_repr]
  · rw [String.toList_append, Nat.toList_repr]
    rfl

theorem toString_ne_nil (n : Int) : (toString n).toList ≠ [] := by
  rw [toList_toString]
  split
  · exact Nat.toDigits_ne_nil
  · exact List.cons_ne_nil _ _

theorem mem_toString {n : Int} {c : Char} (h : c ∈ (toString n).toList) :
    c = '-' ∨ c.isDigit = true := by
  rw [toList_toString] at h
  split at h
  · exact .inr (isDigit_of_mem_toDigits h)
  · exact (List.mem_cons.1 h).imp_right isDigit_of_mem_toDigits

/-- Digits are no sign. -/
theorem splitSign_of_digits {cs : List Char} (h : ∀ c ∈ cs, c.isDigit = true) :
    splitSign cs = (false, cs) := by
  unfold splitSign
  split
  · exact absurd (h '-' (.head _)) (by decide)
  · exact absurd (h '+' (.head _)) (by decide)
  · rfl

theorem readInteger_toString (n : Int) : readInteger (toString n).toList = some n := by
  rw [toList_toString]
  split
  · next hn =>
      rw [readInteger, splitSign_of_digits fun _ => isDigit_of_mem_toDigits]
      simp [readDigits_toDigits, hn]
  · next hn =>
      rw [readInteger, splitSign]
      have hback : -((-n).toNat : Int) = n := by omega
      simp only [readDigits_toDigits]
      exact congrArg some hback

end Decimal

/-! ## Words -/

theorem Word.ofInt?_toInt (w : Int64) : ofInt? w.toInt = some w := by
  obtain ⟨w', hw, hsome⟩ := ofInt?_of_fits (fits_toInt w)
  rw [hsome, Int64.toInt_inj.1 hw]

namespace Value

theorem isBlank_of_mem_text {n : Int64} {c : Char} (h : c ∈ (int n).text.toList) :
    Text.isBlank c = false := by
  rcases Decimal.mem_toString h with rfl | hdigit
  · rfl
  · exact Text.isBlank_of_isDigit hdigit

/-- The text of an integer, between blanks, is read as that integer. -/
theorem castInteger_text (n : Int64) {before after : String} (hbefore : Text.Blank before)
    (hafter : Text.Blank after) :
    (string (before ++ (int n).text ++ after)).castInteger = .ok n := by
  have htrim : Text.trim (before ++ (int n).text ++ after).toList = (int n).text.toList := by
    rw [String.toList_append, String.toList_append, List.append_assoc]
    exact Text.trim_padded hbefore hafter (fun _ => isBlank_of_mem_text)
      (Decimal.toString_ne_nil n.toInt)
  have hread : (Decimal.readInteger (int n).text.toList).bind Word.ofInt? = some n := by
    rw [text, Decimal.readInteger_toString]
    exact Word.ofInt?_toInt n
  simp only [castInteger, htrim, hread]

end Value

/-- An integer that is converted to a string, or joined to an empty one on either side, becomes
one text, and that text is cast back to the integer, with blanks around it or without. -/
theorem applyUnary_asInteger_text (n : Int64) {before after : String}
    (hbefore : Text.Blank before) (hafter : Text.Blank after) :
    ∃ s : String, (Value.int n).coerce .string = .ok (.string s) ∧
      applyBinary .plus (.int n) (.string "") = .ok (.string s) ∧
      applyBinary .plus (.string "") (.int n) = .ok (.string s) ∧
      applyUnary .asInteger (.string s) = .ok (.int n) ∧
      applyUnary .asInteger (.string (before ++ s ++ after)) = .ok (.int n) := by
  refine ⟨(Value.int n).text, rfl, ?_, ?_, ?_, ?_⟩
  · simp [applyBinary, Value.isString, Value.concat, Value.text]
  · simp [applyBinary, Value.isString, Value.concat, Value.text]
  · have hempty : Text.Blank "" := by decide
    have hcast := Value.castInteger_text n hempty hempty
    rw [String.empty_append, String.append_empty] at hcast
    simp only [applyUnary, hcast]
    rfl
  · simp only [applyUnary, Value.castInteger_text n hbefore hafter]
    rfl

/-- The least integer, which is one farther from zero than the greatest, between spaces and a
line break. -/
theorem applyUnary_asInteger_text_minValue :
    Text.Blank "  " ∧ Text.Blank " \n" ∧
      ∃ s : String, (Value.int Int64.minValue).coerce .string = .ok (.string s) ∧
        applyBinary .plus (.int Int64.minValue) (.string "") = .ok (.string s) ∧
        applyBinary .plus (.string "") (.int Int64.minValue) = .ok (.string s) ∧
        applyUnary .asInteger (.string s) = .ok (.int Int64.minValue) ∧
        applyUnary .asInteger (.string ("  " ++ s ++ " \n")) = .ok (.int Int64.minValue) :=
  ⟨by decide, by decide, applyUnary_asInteger_text Int64.minValue (by decide) (by decide)⟩

end OpGraph
