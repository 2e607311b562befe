import Mathlib.Data.Rat.Floor
import Mathlib.Tactic.Linarith
import OpGraph.Scalar.Eval

/-!
# Operators on integers are exact

Two 64-bit integers go into an operator, and what comes out is the result on all integers
or an error (`applyBinary_int_exact`). For `+`, `-` and `*` this is a matter of the range.
The quotient and the remainder follow the floor, and are computed from a division that
truncates: where there is a rest on the wrong side of zero, the quotient is lowered by one
and the divisor is added to the rest.

`Word.LeftOver` says what a floor may leave over. A rest of truncation that is no such
leftover becomes one when the divisor is added, and the two conditions under which the
code makes its corrections both say that it is none (`Word.corrects_quotient_iff`,
`Word.corrects_rest_iff`). The corrections are computed on words, and none of them wraps
around: lowering a quotient needs a divisor of at least two, which keeps the quotient far from
the least word, and a divisor is only added to a rest of the other sign.
-/

namespace OpGraph

namespace Word

/-! ## What a floor leaves over -/

/-- The rest belongs to the floor of a quotient by `b`: it is nearer to zero than `b` is, and
not on the other side. -/
def LeftOver (b m : Int) : Prop := 0 ≤ m ∧ m < b ∨ b < m ∧ m ≤ 0

theorem floor_of_leftOver {a b q m : Int} (h : a = b * q + m) (hm : LeftOver b m) :
    ⌊(a : ℚ) / b⌋ = q := by
  have ha : (a : ℚ) = b * q + m := by exact_mod_cast h
  rw [Int.floor_eq_iff]
  rcases hm with ⟨hlow, hhigh⟩ | ⟨hlow, hhigh⟩
  · have hb : (0 : ℚ) < b := by exact_mod_cast Int.lt_of_le_of_lt hlow hhigh
    have hlow : (0 : ℚ) ≤ m := by exact_mod_cast hlow
    have hhigh : (m : ℚ) < b := by exact_mod_cast hhigh
    rw [le_div_iff₀ hb, div_lt_iff₀ hb]
    constructor <;> linarith
  · have hb : (b : ℚ) < 0 := by exact_mod_cast Int.lt_of_lt_of_le hlow hhigh
    have hlow : (b : ℚ) < m := by exact_mod_cast hlow
    have hhigh : (m : ℚ) ≤ 0 := by exact_mod_cast hhigh
    rw [le_div_iff_of_neg hb, div_lt_iff_of_neg hb]
    constructor <;> linarith

/-- The rest of a division that truncates is nearer to zero than the divisor, and on the side
of the dividend. -/
theorem tmod_bounds (a : Int) {b : Int} (hb : b ≠ 0) :
    (0 ≤ a → 0 ≤ a.tmod b) ∧ (a ≤ 0 → a.tmod b ≤ 0) ∧ (a.tmod b).natAbs < b.natAbs := by
  refine ⟨Int.tmod_nonneg b, fun ha => ?_, ?_⟩
  · have hneg := Int.tmod_nonneg b (Int.neg_nonneg_of_nonpos ha)
    rw [Int.neg_tmod] at hneg
    omega
  · rw [Int.natAbs_tmod]
    exact Nat.mod_lt _ (Int.natAbs_pos.2 hb)

theorem leftOver_add {a b : Int} (hb : b ≠ 0) (h : ¬ LeftOver b (a.tmod b)) :
    LeftOver b (a.tmod b + b) := by
  obtain ⟨-, -, hlt⟩ := tmod_bounds a hb
  unfold LeftOver at *
  omega

theorem floor_eq_tdiv {a b : Int} (h : LeftOver b (a.tmod b)) : ⌊(a : ℚ) / b⌋ = a.tdiv b :=
  floor_of_leftOver (Int.mul_tdiv_add_tmod a b).symm h

theorem floor_eq_tdiv_sub_one {a b : Int} (hb : b ≠ 0) (h : ¬ LeftOver b (a.tmod b)) :
    ⌊(a : ℚ) / b⌋ = a.tdiv b - 1 := by
  refine floor_of_leftOver ?_ (leftOver_add hb h)
  have hsplit := Int.mul_tdiv_add_tmod a b
  rw [Int.mul_sub]
  omega

/-- A rest has the sign of the divisor, if it has one. -/
theorem LeftOver.sign {b m : Int} (h : LeftOver b m) :
    (m = 0 ∨ m.sign = b.sign) ∧ m.natAbs < b.natAbs := by
  rcases h with ⟨hlow, hhigh⟩ | ⟨hlow, hhigh⟩
  · refine ⟨(eq_or_lt_of_le hlow).imp Eq.symm fun hpos => ?_, by omega⟩
    rw [Int.sign_eq_one_of_pos hpos, Int.sign_eq_one_of_pos (Int.lt_trans hpos hhigh)]
  · refine ⟨(eq_or_lt_of_le hhigh).imp id fun hneg => ?_, by omega⟩
    rw [Int.sign_eq_neg_one_of_neg hneg, Int.sign_eq_neg_one_of_neg (Int.lt_trans hlow hneg)]

/-! ## Words and integers -/

/-- The integer is a word. -/
def Fits (n : Int) : Prop := Int64.minValue.toInt ≤ n ∧ n ≤ Int64.maxValue.toInt

instance (n : Int) : Decidable (Fits n) := inferInstanceAs (Decidable (_ ∧ _))

theorem fits_iff {n : Int} : Fits n ↔ -9223372036854775808 ≤ n ∧ n ≤ 9223372036854775807 :=
  Iff.rfl

theorem fits_toInt (w : Int64) : Fits w.toInt := ⟨w.minValue_le_toInt, w.toInt_le⟩

theorem bmod_of_fits {n : Int} (h : Fits n) : n.bmod (2 ^ 64) = n := by
  rw [fits_iff] at h
  exact Int.bmod_eq_of_le (by omega) (by omega)

theorem ofInt?_of_fits {n : Int} (h : Fits n) : ∃ w : Int64, w.toInt = n ∧ ofInt? n = some w :=
  ⟨Int64.ofInt n, by rw [Int64.toInt_ofInt]; exact bmod_of_fits h, if_pos h⟩

theorem ofInt?_of_not_fits {n : Int} (h : ¬ Fits n) : ofInt? n = none := if_neg h

theorem toInt_eq_zero_iff {w : Int64} : w.toInt = 0 ↔ w = 0 := by
  rw [← Int64.toInt_inj, Int64.toInt_zero]

theorem toInt_neg_iff {w : Int64} : w.toInt < 0 ↔ w < 0 := by
  rw [Int64.lt_iff_toInt_lt, Int64.toInt_zero]

section Division

variable {l r : Int64}

/-- The condition under which a quotient is lowered. -/
theorem corrects_quotient_iff (hr : r ≠ 0) :
    (l % r ≠ 0 ∧ decide (l < 0) ≠ decide (r < 0)) ↔
      ¬ LeftOver r.toInt (l.toInt.tmod r.toInt) := by
  obtain ⟨hpos, hneg, hlt⟩ := tmod_bounds l.toInt (mt toInt_eq_zero_iff.1 hr)
  rw [ne_eq, ne_eq, ← toInt_eq_zero_iff, Int64.toInt_mod, decide_eq_decide, ← toInt_neg_iff,
    ← toInt_neg_iff]
  unfold LeftOver
  omega

/-- The condition under which the divisor is added to a rest. -/
theorem corrects_rest_iff (hr : r ≠ 0) :
    (l % r ≠ 0 ∧ decide (l % r < 0) ≠ decide (r < 0)) ↔
      ¬ LeftOver r.toInt (l.toInt.tmod r.toInt) := by
  obtain ⟨-, -, hlt⟩ := tmod_bounds l.toInt (mt toInt_eq_zero_iff.1 hr)
  rw [ne_eq, ne_eq, ← toInt_eq_zero_iff, decide_eq_decide, ← toInt_neg_iff, ← toInt_neg_iff,
    Int64.toInt_mod]
  unfold LeftOver
  omega

theorem toInt_div (h : ¬ (l = Int64.minValue ∧ r = -1)) :
    (l / r).toInt = l.toInt.tdiv r.toInt := by
  by_cases hl : l = Int64.minValue
  · exact Int64.toInt_div_of_ne_right l r fun hr => h ⟨hl, hr⟩
  · exact Int64.toInt_div_of_ne_left l r hl

/-- A quotient with a rest is at most half as far from zero as the dividend. -/
theorem toInt_div_sub_one (hr : r ≠ 0) (h : ¬ (l = Int64.minValue ∧ r = -1))
    (hrest : l % r ≠ 0) : (l / r - 1).toInt = (l / r).toInt - 1 := by
  obtain ⟨-, -, hlt⟩ := tmod_bounds l.toInt (mt toInt_eq_zero_iff.1 hr)
  rw [ne_eq, ← toInt_eq_zero_iff, Int64.toInt_mod] at hrest
  have hhalf : (l.toInt.tdiv r.toInt).natAbs ≤ l.toInt.natAbs / 2 := by
    rw [Int.natAbs_tdiv]
    exact Nat.div_le_div_left (by omega) (by decide)
  have hl := fits_iff.1 (fits_toInt l)
  rw [Int64.toInt_sub, toInt_div h]
  exact bmod_of_fits (fits_iff.2 (by simp only [Int64.toInt_one]; omega))

theorem toInt_mod_add (hr : r ≠ 0) (h : ¬ LeftOver r.toInt (l.toInt.tmod r.toInt)) :
    (l % r + r).toInt = (l % r).toInt + r.toInt := by
  have hover := leftOver_add (mt toInt_eq_zero_iff.1 hr) h
  have hfits := fits_iff.1 (fits_toInt r)
  rw [Int64.toInt_add, Int64.toInt_mod]
  unfold LeftOver at hover
  exact bmod_of_fits (fits_iff.2 (by omega))

/-- A quotient that is in range is the floor. -/
theorem exists_floorDiv (hr : r ≠ 0) (h : ¬ (l = Int64.minValue ∧ r = -1)) :
    ∃ q, floorDiv? l r = some q ∧ q.toInt = ⌊(l.toInt : ℚ) / r.toInt⌋ := by
  have hb := mt toInt_eq_zero_iff.1 hr
  unfold floorDiv?
  rw [if_neg h]
  refine ⟨_, rfl, ?_⟩
  by_cases hover : LeftOver r.toInt (l.toInt.tmod r.toInt)
  · rw [if_neg fun hc => (corrects_quotient_iff hr).1 hc hover, floor_eq_tdiv hover, toInt_div h]
  · have hc := (corrects_quotient_iff hr).2 hover
    rw [if_pos hc, toInt_div_sub_one hr h hc.1, toInt_div h, floor_eq_tdiv_sub_one hb hover]

/-- The remainder is what the floor leaves over. -/
theorem toInt_floorMod (hr : r ≠ 0) : LeftOver r.toInt (floorMod l r).toInt ∧
    (floorMod l r).toInt = l.toInt - r.toInt * ⌊(l.toInt : ℚ) / r.toInt⌋ := by
  have hb := mt toInt_eq_zero_iff.1 hr
  have hsplit := Int.mul_tdiv_add_tmod l.toInt r.toInt
  unfold floorMod
  by_cases hover : LeftOver r.toInt (l.toInt.tmod r.toInt)
  · rw [if_neg fun hc => (corrects_rest_iff hr).1 hc hover, floor_eq_tdiv hover, Int64.toInt_mod]
    exact ⟨hover, by omega⟩
  · rw [if_pos ((corrects_rest_iff hr).2 hover), toInt_mod_add hr hover, Int64.toInt_mod,
      floor_eq_tdiv_sub_one hb hover, Int.mul_sub]
    exact ⟨leftOver_add hb hover, by omega⟩

/-- The words that come up on the way to a quotient or a remainder stand for the integers
that they are meant to stand for. The conditions are those under which they are computed. -/
structure StepsExact (l r : Int64) : Prop where
  quotient : ¬ (l = Int64.minValue ∧ r = -1) → (l / r).toInt = l.toInt.tdiv r.toInt
  rest : (l % r).toInt = l.toInt.tmod r.toInt
  quotient_lowered : l % r ≠ 0 ∧ decide (l < 0) ≠ decide (r < 0) →
    (l / r - 1).toInt = (l / r).toInt - 1
  rest_raised : l % r ≠ 0 ∧ decide (l % r < 0) ≠ decide (r < 0) →
    (l % r + r).toInt = (l % r).toInt + r.toInt

theorem stepsExact (hr : r ≠ 0) : StepsExact l r where
  quotient := toInt_div
  rest := Int64.toInt_mod l r
  quotient_lowered hc := by
    refine toInt_div_sub_one hr ?_ hc.1
    rintro ⟨rfl, rfl⟩
    exact hc.1 rfl
  rest_raised hc := toInt_mod_add hr ((corrects_rest_iff hr).1 hc)

end Division

end Word

/-! ## The operators -/

/-- On two integers the operator has the result `n`, where `n` is a 64-bit integer, and
overflows otherwise. -/
def ExactOrOverflow (op : BinaryOp) (l r : Int64) (n : Int) : Prop :=
  if Word.Fits n then
    ∃ w : Int64, w.toInt = n ∧ applyBinary op (.int l) (.int r) = .ok (.int w)
  else applyBinary op (.int l) (.int r) = .error (.overflow (.binary op l r))

theorem exactOrOverflow_of_ofInt? {op : BinaryOp} {l r : Int64} {n : Int}
    {f : Int64 → Int64 → Option Int64} (hf : f l r = Word.ofInt? n)
    (hop : applyBinary op (.int l) (.int r) = (exactly op f l r).map .int) :
    ExactOrOverflow op l r n := by
  unfold ExactOrOverflow
  rw [hop, exactly, hf]
  split
  · next hfits =>
      obtain ⟨w, hw, hsome⟩ := Word.ofInt?_of_fits hfits
      rw [hsome]
      exact ⟨w, hw, rfl⟩
  · next hfits =>
      rw [Word.ofInt?_of_not_fits hfits]
      rfl

/-- A quotient of integers is the floor, and fails in two cases. -/
theorem applyBinary_intDivide_cases (l r : Int64) :
    (r = 0 ∧ applyBinary .intDivide (.int l) (.int r) = .error (.divisionByZero .intDivide l)) ∨
      (r ≠ 0 ∧ (l = Int64.minValue ∧ r = -1) ∧
        applyBinary .intDivide (.int l) (.int r) = .error (.overflow (.binary .intDivide l r))) ∨
      (r ≠ 0 ∧ ¬ (l = Int64.minValue ∧ r = -1) ∧ ∃ q : Int64,
        q.toInt = ⌊(l.toInt : ℚ) / r.toInt⌋ ∧
          applyBinary .intDivide (.int l) (.int r) = .ok (.int q)) := by
  have happly : applyBinary .intDivide (.int l) (.int r) = (intQuotient l r).map .int := rfl
  rw [happly]
  by_cases hr : r = 0
  · subst hr
    exact .inl ⟨rfl, rfl⟩
  · rw [intQuotient, if_neg hr, exactly]
    by_cases hleast : l = Int64.minValue ∧ r = -1
    · refine .inr (.inl ⟨hr, hleast, ?_⟩)
      rw [Word.floorDiv?, if_pos hleast]
      rfl
    · obtain ⟨q, hq, hfloor⟩ := Word.exists_floorDiv hr hleast
      refine .inr (.inr ⟨hr, hleast, q, hfloor, ?_⟩)
      rw [hq]
      rfl

/-- A remainder of integers is what the floor leaves over, and fails for zero only. -/
theorem applyBinary_modulus_cases (l r : Int64) :
    (r = 0 ∧ applyBinary .modulus (.int l) (.int r) = .error (.divisionByZero .modulus l)) ∨
      (r ≠ 0 ∧ applyBinary .modulus (.int l) (.int r) = .ok (.int (Word.floorMod l r))) := by
  have happly : applyBinary .modulus (.int l) (.int r) = (intRemainder l r).map .int := rfl
  rw [happly, intRemainder]
  by_cases hr : r = 0
  · subst hr
    exact .inl ⟨rfl, rfl⟩
  · rw [if_neg hr]
    exact .inr ⟨hr, rfl⟩

/-- Operators on two integers have the result that they have on all integers, or say why
there is none, and the words from which a quotient or a remainder is put together are all in
range. -/
theorem applyBinary_int_exact (l r : Int64) :
    ExactOrOverflow .plus l r (l.toInt + r.toInt) ∧
    ExactOrOverflow .minus l r (l.toInt - r.toInt) ∧
    ExactOrOverflow .times l r (l.toInt * r.toInt) ∧
    (applyBinary .intDivide (.int l) (.int r) = .error (.divisionByZero .intDivide l) ↔ r = 0) ∧
    (applyBinary .intDivide (.int l) (.int r) = .error (.overflow (.binary .intDivide l r)) ↔
      l = Int64.minValue ∧ r = -1) ∧
    (r ≠ 0 ∧ ¬ (l = Int64.minValue ∧ r = -1) → ∃ q : Int64,
      q.toInt = ⌊(l.toInt : ℚ) / r.toInt⌋ ∧
        applyBinary .intDivide (.int l) (.int r) = .ok (.int q)) ∧
    (applyBinary .modulus (.int l) (.int r) = .error (.divisionByZero .modulus l) ↔ r = 0) ∧
    (r ≠ 0 → ∃ m : Int64, m.toInt = l.toInt - r.toInt * ⌊(l.toInt : ℚ) / r.toInt⌋ ∧
      (m = 0 ∨ m.toInt.sign = r.toInt.sign) ∧ m.toInt.natAbs < r.toInt.natAbs ∧
        applyBinary .modulus (.int l) (.int r) = .ok (.int m)) ∧
    (r ≠ 0 → Word.StepsExact l r) := by
  refine ⟨exactOrOverflow_of_ofInt? (f := Word.add?) rfl rfl,
    exactOrOverflow_of_ofInt? (f := Word.sub?) rfl rfl,
    exactOrOverflow_of_ofInt? (f := Word.mul?) rfl rfl, ?_, ?_, ?_, ?_, ?_, Word.stepsExact⟩
  · obtain ⟨hr, hrun⟩ | ⟨hr, -, hrun⟩ | ⟨hr, -, q, -, hrun⟩ := applyBinary_intDivide_cases l r
    all_goals
      rw [hrun]
      simp [hr]
  · obtain ⟨hr, hrun⟩ | ⟨-, hleast, hrun⟩ | ⟨-, hleast, q, -, hrun⟩ :=
      applyBinary_intDivide_cases l r
    · rw [hrun]
      simp [hr]
    · rw [hrun]
      simp [hleast]
    · rw [hrun]
      simp [hleast]
  · rintro ⟨hr, hleast⟩
    obtain ⟨hzero, -⟩ | ⟨-, hmin, -⟩ | ⟨-, -, hresult⟩ := applyBinary_intDivide_cases l r
    · exact absurd hzero hr
    · exact absurd hmin hleast
    · exact hresult
  · obtain ⟨hr, hrun⟩ | ⟨hr, hrun⟩ := applyBinary_modulus_cases l r
    all_goals
      rw [hrun]
      simp [hr]
  · intro hr
    obtain ⟨hover, hvalue⟩ := Word.toInt_floorMod (l := l) hr
    obtain ⟨hsign, hlt⟩ := hover.sign
    refine ⟨Word.floorMod l r, hvalue, hsign.imp_left Word.toInt_eq_zero_iff.1, hlt, ?_⟩
    obtain ⟨hzero, -⟩ | ⟨-, hrun⟩ := applyBinary_modulus_cases l r
    · exact absurd hzero hr
    · exact hrun

end OpGraph
