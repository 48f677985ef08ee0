import PortfolioLab.Decimal.Numeral
import Mathlib.Data.List.TakeWhile
import Mathlib.Data.String.Basic

/-!
# Numerals that are read back

A decimal is written as a sign, digits with at most one point among them, and an exponent if the point
would stand too far away. A numeral that the format can hold is read back as it was written, with the same
coefficient and the same exponent.
-/

namespace PortfolioLab

namespace Text

theorem digitValue?_of_isDigit {c : Char} (h : c.isDigit = true) :
    digitValue? c = some (c.toNat - '0'.toNat) := by
  have hlt : c.toNat < 128 := by
    simp only [Char.isDigit, Bool.and_eq_true, decide_eq_true_eq, UInt32.le_iff_toNat_le] at h
    exact lt_of_le_of_lt h.2 (by decide)
  rw [digitValue?, if_pos hlt, if_pos h]
  rfl

def IsNumeralChar (c : Char) : Prop := c.isDigit = true ∨ c ∈ ['.', 'E', '+', '-']

theorem IsNumeralChar.not_blank {c : Char} (h : IsNumeralChar c) : isBlank c = false := by
  rcases h with h | h
  · simp only [Char.isDigit, Bool.and_eq_true, decide_eq_true_eq, UInt32.le_iff_toNat_le] at h
    have hlow : 48 ≤ c.toNat := h.1
    have hhigh : c.toNat ≤ 57 := h.2
    simp only [isBlank, Bool.or_eq_false_iff, Bool.and_eq_false_iff, decide_eq_false_iff_not,
      beq_eq_false_iff_ne]
    omega
  · simp only [List.mem_cons, List.not_mem_nil, or_false] at h
    rcases h with rfl | rfl | rfl | rfl <;> rfl

theorem IsNumeralChar.ne_underscore {c : Char} (h : IsNumeralChar c) : c ≠ '_' := by
  rintro rfl
  rcases h with h | h
  · cases h
  · simp at h

theorem trimBlanks_eq_self {cs : List Char} (h : ∀ c ∈ cs, isBlank c = false) : trimBlanks cs = cs := by
  have hkept : ∀ cs : List Char, (∀ c ∈ cs, isBlank c = false) → cs.dropWhile isBlank = cs := by
    intro cs hcs
    cases cs with
    | nil => rfl
    | cons c cs => rw [List.dropWhile_cons_of_neg (by simp [hcs c List.mem_cons_self])]
  rw [trimBlanks, hkept cs h, hkept cs.reverse fun c hc => h c (List.mem_reverse.mp hc),
    List.reverse_reverse]

end Text

open Text (IsNumeralChar)

namespace Numeral

/-! ## Rows of digits -/

def AllDigits (cs : List Char) : Prop := ∀ c ∈ cs, c.isDigit = true

def values (cs : List Char) : List Nat := cs.map fun c => c.toNat - '0'.toNat

theorem splitDigits_append {cs rest : List Char} (h : AllDigits cs)
    (hrest : splitDigits rest = ([], rest)) : splitDigits (cs ++ rest) = (values cs, rest) := by
  induction cs with
  | nil => exact hrest
  | cons c cs ih =>
    have hc := Text.digitValue?_of_isDigit (h c List.mem_cons_self)
    have hcs := ih fun d hd => h d (List.mem_cons_of_mem _ hd)
    simp only [List.cons_append, splitDigits, hc, hcs, values, List.map_cons]

theorem splitDigits_eq {cs : List Char} (h : AllDigits cs) : splitDigits cs = (values cs, []) := by
  have hnil : splitDigits [] = ([], []) := rfl
  simpa using splitDigits_append h hnil

theorem ofDigits_values (cs : List Char) : ofDigits (values cs) = Nat.ofDigitChars 10 cs 0 := by
  rw [ofDigits, values, List.foldl_map, Nat.ofDigitChars_eq_foldl]

theorem allDigits_toDigits (n : Nat) : AllDigits (Nat.toDigits 10 n) := fun _ hc =>
  Nat.isDigit_of_mem_toDigits (by decide) (by decide) hc

theorem splitSign_of_isDigit {c : Char} (h : c.isDigit = true) (cs : List Char) :
    splitSign (c :: cs) = (false, c :: cs) := by
  unfold splitSign
  split
  · next heq =>
    cases heq
    cases h
  · next heq =>
    cases heq
    cases h
  · rfl

/-! ## Exponents -/

/-- An exponent as it is written; none is written for zero. -/
def exponentChars (x : Int) : List Char :=
  if x = 0 then []
  else if x < 0 then 'E' :: '-' :: Nat.toDigits 10 (-x).toNat
  else 'E' :: '+' :: Nat.toDigits 10 x.toNat

private theorem exponentChars_cases (x : Int) :
    exponentChars x = [] ∨ ∃ cs, exponentChars x = 'E' :: cs := by
  unfold exponentChars
  split
  · exact .inl rfl
  · split <;> exact .inr ⟨_, rfl⟩

theorem splitDigits_exponentChars (x : Int) :
    splitDigits (exponentChars x) = ([], exponentChars x) := by
  rcases exponentChars_cases x with h | ⟨cs, h⟩ <;> rw [h] <;> rfl

private theorem readExponent?_digits (sign : Char) (negative : Bool) (n : Nat)
    (hsign : splitSign (sign :: Nat.toDigits 10 n) = (negative, Nat.toDigits 10 n)) :
    readExponent? ('E' :: sign :: Nat.toDigits 10 n) = some (if negative then -(n : Int) else n) := by
  have hvalue : ofDigits (values (Nat.toDigits 10 n)) = n := by
    rw [ofDigits_values, Nat.ofDigitChars_ten_toDigits]
  have hne : values (Nat.toDigits 10 n) ≠ [] := by simp [values, Nat.toDigits_ne_nil]
  obtain ⟨v, vs, hvs⟩ := List.exists_cons_of_ne_nil hne
  rw [hvs] at hvalue
  rw [readExponent?, if_pos (.inr rfl), hsign]
  simp only [splitDigits_eq (allDigits_toDigits n), hvs, hvalue]

theorem readExponent?_exponentChars (x : Int) : readExponent? (exponentChars x) = some x := by
  unfold exponentChars
  split
  · next hzero => rw [hzero]; rfl
  · split
    · next hneg =>
      rw [readExponent?_digits '-' true _ rfl, if_pos rfl]
      congr 1
      omega
    · next hpos =>
      rw [readExponent?_digits '+' false _ rfl, if_neg (by decide)]
      congr 1
      omega

/-! ## Bodies -/

def bodyChars (whole fraction : List Char) (x : Int) : List Char :=
  whole ++ (if fraction = [] then [] else '.' :: fraction) ++ exponentChars x

theorem readUnsigned?_bodyChars {whole fraction : List Char} (hw : AllDigits whole) (hne : whole ≠ [])
    (hf : AllDigits fraction) (negative : Bool) (x : Int) :
    readUnsigned? negative (bodyChars whole fraction x) =
      some ⟨negative, Nat.ofDigitChars 10 (whole ++ fraction) 0, x - fraction.length⟩ := by
  have hvalues : values whole ≠ [] := by simpa [values] using hne
  obtain ⟨v, vs, hvs⟩ := List.exists_cons_of_ne_nil hvalues
  unfold bodyChars
  by_cases hnone : fraction = []
  · rw [if_pos hnone, List.append_nil]
    unfold readUnsigned?
    rw [splitDigits_append hw (splitDigits_exponentChars x), hvs]
    have hexponent : (readExponent? (exponentChars x)).map (ofParts negative (v :: vs) []) =
        some ⟨negative, Nat.ofDigitChars 10 (whole ++ fraction) 0, x - fraction.length⟩ := by
      rw [readExponent?_exponentChars, ← hvs, hnone]
      simp [ofParts, ofDigits_values]
    rcases exponentChars_cases x with h | ⟨cs, h⟩
    · rw [h] at hexponent ⊢
      exact hexponent
    · rw [h] at hexponent ⊢
      exact hexponent
  · rw [if_neg hnone, List.append_assoc, List.cons_append]
    have hpoint : splitDigits ('.' :: (fraction ++ exponentChars x)) =
        ([], '.' :: (fraction ++ exponentChars x)) := rfl
    unfold readUnsigned?
    rw [splitDigits_append hw hpoint]
    simp only [splitDigits_append hf (splitDigits_exponentChars x), hvs, List.isEmpty_cons, Bool.false_and,
      readExponent?_exponentChars]
    simp [ofParts, ← hvs, ← ofDigits_values, values]

/-! ## Whole numerals -/

def numeralChars (negative : Bool) (whole fraction : List Char) (x : Int) : List Char :=
  (if negative then ['-'] else []) ++ bodyChars whole fraction x

private theorem isNumeralChar_exponentChars (x : Int) : ∀ c ∈ exponentChars x, IsNumeralChar c := by
  have hdigits : ∀ n, ∀ c ∈ Nat.toDigits 10 n, IsNumeralChar c := fun n c hc =>
    .inl (allDigits_toDigits n c hc)
  unfold exponentChars
  split
  · simp
  · split
    · simpa [IsNumeralChar] using hdigits (-x).toNat
    · simpa [IsNumeralChar] using hdigits x.toNat

private theorem isNumeralChar_numeralChars {whole fraction : List Char} (hw : AllDigits whole)
    (hf : AllDigits fraction) (negative : Bool) (x : Int) :
    ∀ c ∈ numeralChars negative whole fraction x, IsNumeralChar c := by
  intro c hc
  simp only [numeralChars, bodyChars, List.mem_append] at hc
  rcases hc with hsign | (hwhole | hfraction) | hexponent
  · split at hsign <;> simp_all [IsNumeralChar]
  · exact .inl (hw c hwhole)
  · split at hfraction
    · cases hfraction
    · rcases List.mem_cons.mp hfraction with rfl | hc
      · exact .inr (by simp)
      · exact .inl (hf c hc)
  · exact isNumeralChar_exponentChars x c hexponent

theorem ofText?_of_toList {s : String} {negative : Bool} {whole fraction : List Char} {x : Int}
    (hs : s.toList = numeralChars negative whole fraction x) (hw : AllDigits whole) (hne : whole ≠ [])
    (hf : AllDigits fraction) {d : Decimal}
    (hd : d = ⟨negative, Nat.ofDigitChars 10 (whole ++ fraction) 0, x - fraction.length⟩)
    (hfits : fits d = true) : ofText? s = some (.finite d) := by
  have hchars := isNumeralChar_numeralChars hw hf negative x
  have hclean : (Text.trimBlanks s.toList).filter (· != '_') = numeralChars negative whole fraction x := by
    rw [hs, Text.trimBlanks_eq_self fun c hc => (hchars c hc).not_blank, List.filter_eq_self]
    exact fun c hc => by simpa using (hchars c hc).ne_underscore
  have hsign : splitSign (numeralChars negative whole fraction x) =
      (negative, bodyChars whole fraction x) := by
    cases negative with
    | true => rfl
    | false =>
      obtain ⟨c, cs, rfl⟩ := List.exists_cons_of_ne_nil hne
      exact splitSign_of_isDigit (hw c List.mem_cons_self) _
  rw [ofText?, hclean, hsign]
  simp only [readUnsigned?_bodyChars hw hne hf, ← hd, if_pos hfits]

end Numeral

namespace Decimal

open Numeral (AllDigits numeralChars exponentChars fits)

private theorem toList_exponent (x : Int) :
    (if x = 0 then "" else if x < 0 then s!"E{x}" else s!"E+{x}").toList = exponentChars x := by
  unfold exponentChars
  split
  · rfl
  · split
    · next hneg =>
      have hnot : ¬ 0 ≤ x := by omega
      simp [Int.toString_eq_repr, Int.repr_eq_if, hnot, Nat.toList_repr]
      rfl
    · next hpos =>
      have hnonneg : 0 ≤ x := by omega
      simp [Int.toString_eq_repr, Int.repr_eq_if, hnonneg, Nat.toList_repr]
      rfl

private theorem ofDigitChars_zeros (k : Nat) (digits : List Char) :
    Nat.ofDigitChars 10 (['0'] ++ (List.replicate k '0' ++ digits)) 0 = Nat.ofDigitChars 10 digits 0 := by
  rw [Nat.ofDigitChars_append, Nat.ofDigitChars_append, Nat.ofDigitChars_cons, Nat.ofDigitChars_nil,
    Nat.ofDigitChars_replicate_zero]
  rfl

/-- How a decimal is written. -/
theorem toList_toText (d : Decimal) : ∃ whole fraction x, d.toText.toList =
      numeralChars d.negative whole fraction x ∧ AllDigits whole ∧ whole ≠ [] ∧ AllDigits fraction ∧
      d = ⟨d.negative, Nat.ofDigitChars 10 (whole ++ fraction) 0, x - fraction.length⟩ := by
  obtain ⟨negative, coefficient, exponent⟩ := d
  have hdigits : (toString coefficient).toList = Nat.toDigits 10 coefficient := by
    rw [Nat.toString_eq_repr, Nat.toList_repr]
  have hall := Numeral.allDigits_toDigits coefficient
  have hcoefficient := Nat.ofDigitChars_ten_toDigits (n := coefficient)
  have hne : Nat.toDigits 10 coefficient ≠ [] := Nat.toDigits_ne_nil
  have hsign : (if negative then "-" else "").toList = if negative then ['-'] else [] := by
    split <;> rfl
  unfold toText
  dsimp only
  rw [← String.length_toList, hdigits]
  generalize hpoint : (if exponent ≤ 0 ∧ -6 < ((Nat.toDigits 10 coefficient).length : Int) + exponent then
    ((Nat.toDigits 10 coefficient).length : Int) + exponent else 1) = point
  rw [String.toList_append, String.toList_append, hsign, toList_exponent]
  generalize Nat.toDigits 10 coefficient = digits at *
  have hlength := List.length_pos_iff.mpr hne
  by_cases hsmall : point ≤ 0
  · -- zeros between the point and the digits, and then no exponent
    have hplace : point = digits.length + exponent := by
      split at hpoint <;> omega
    rw [if_pos hsmall, String.toList_append, String.toList_append, String.toList_ofList, hdigits]
    refine ⟨['0'], List.replicate (-point).toNat '0' ++ digits, digits.length + exponent - point,
      ?_, by simp [AllDigits], by simp, ?_, ?_⟩
    · simp [numeralChars, Numeral.bodyChars, hne]
    · intro c hc
      rcases List.mem_append.mp hc with hc | hc
      · rw [(List.mem_replicate.mp hc).2]
        rfl
      · exact hall c hc
    · rw [ofDigitChars_zeros, hcoefficient]
      simp only [Decimal.mk.injEq, true_and, List.length_append, List.length_replicate]
      omega
  · rw [if_neg hsmall]
    by_cases hwhole : (digits.length : Int) ≤ point
    · have hplace : point = digits.length := by
        split at hpoint <;> omega
      rw [if_pos hwhole, hdigits]
      refine ⟨digits, [], digits.length + exponent - point, ?_, hall, hne, by simp [AllDigits], ?_⟩
      · simp [numeralChars, Numeral.bodyChars]
      · simp only [List.append_nil, Decimal.mk.injEq, true_and, hcoefficient, List.length_nil]
        omega
    · have hdrop : digits.drop point.toNat ≠ [] := by
        rw [ne_eq, List.drop_eq_nil_iff]
        omega
      have htake : digits.take point.toNat ≠ [] := by
        rw [ne_eq, List.take_eq_nil_iff]
        exact fun h => h.elim (by omega) hne
      rw [if_neg hwhole, String.toList_append, String.toList_append, String.Slice.toString,
        String.Slice.toString, String.toList_copy_take, String.toList_copy_drop, hdigits]
      refine ⟨digits.take point.toNat, digits.drop point.toNat, digits.length + exponent - point, ?_,
        fun c hc => hall c (List.mem_of_mem_take hc), htake,
        fun c hc => hall c (List.mem_of_mem_drop hc), ?_⟩
      · simp only [numeralChars, Numeral.bodyChars, if_neg hdrop]
        simp
      · rw [List.take_append_drop, hcoefficient, List.length_drop]
        simp only [Decimal.mk.injEq, true_and]
        omega

/-- A decimal that the format can hold is read back as it was written. -/
theorem ofText?_toText {d : Decimal} (h : fits d = true) :
    Numeral.ofText? d.toText = some (.finite d) := by
  obtain ⟨whole, fraction, x, hs, hw, hne, hf, hd⟩ := d.toList_toText
  exact Numeral.ofText?_of_toList hs hw hne hf hd h

end Decimal
end PortfolioLab
