import Mathlib.Data.List.TakeWhile
import ImpMachine.Decimal.Real
import ImpMachine.Result

/-!
# Whole numbers and their numerals

A numeral is a run of digits, and the number that it denotes is the sum of its digits times the
powers of ten; a minus sign negates it. Reading a word accepts exactly the texts that denote one,
and gives that word (`readWord_eq_ok_iff`); a word's own text denotes it (`denotes_wordText`).
-/

namespace ImpMachine

open List

variable {cs : List Char} {beyond : IntegerFault} {n : Int64}

/-- A run of characters of one class ends where the class ends. -/
theorem takeWhile_dropWhile_append {p : Char → Bool} {run rest : List Char}
    (hrun : ∀ c ∈ run, p c = true) (hrest : ∀ c, rest.head? = some c → p c = false) :
    (run ++ rest).takeWhile p = run ∧ (run ++ rest).dropWhile p = rest := by
  rw [takeWhile_append_of_pos hrun, dropWhile_append_of_pos hrun]
  cases rest with
  | nil => simp
  | cons c rest => simp [hrest c rfl]

namespace Decimal

/-- At least one digit and nothing else. -/
def IsNumeral (cs : List Char) : Prop :=
  cs ≠ [] ∧ ∀ c ∈ cs, c.isDigit = true

/-- The number that a numeral denotes, after a minus sign the negated number. -/
inductive Denotes : List Char → Int → Prop where
  | natural {digits : List Char} : IsNumeral digits → Denotes digits (Nat.ofDigitChars 10 digits 0)
  | negative {digits : List Char} :
      IsNumeral digits → Denotes ('-' :: digits) (-(Nat.ofDigitChars 10 digits 0 : Int))

theorem le_ofDigitChars (cs : List Char) (value : Nat) : value ≤ Nat.ofDigitChars 10 cs value := by
  induction cs generalizing value with
  | nil => simp
  | cons c cs ih =>
    rw [Nat.ofDigitChars_cons]
    have := ih (10 * value + (c.toNat - '0'.toNat))
    omega

theorem readMagnitude_eq_ok_iff {limit value n : Nat} (h : value ≤ limit) :
    readMagnitude limit beyond value cs = .ok n ↔
      (∀ c ∈ cs, c.isDigit = true) ∧ n = Nat.ofDigitChars 10 cs value ∧ n ≤ limit := by
  induction cs generalizing value with
  | nil =>
    simp only [readMagnitude, Except.ok.injEq, Nat.ofDigitChars_nil]
    constructor
    · rintro rfl
      exact ⟨by simp, rfl, h⟩
    · rintro ⟨-, rfl, -⟩
      rfl
  | cons c cs ih =>
    have hnext : value * 10 + digitValue c = 10 * value + (c.toNat - '0'.toNat) := by
      rw [digitValue, Nat.mul_comm]
    simp only [readMagnitude, hnext, Nat.ofDigitChars_cons, forall_mem_cons]
    by_cases hc : c.isDigit
    · simp only [hc, true_and, if_true]
      split
      · rename_i hle
        exact ih hle
      · rename_i hgt
        have := le_ofDigitChars cs (10 * value + (c.toNat - '0'.toNat))
        simp only [reduceCtorEq, false_iff]
        omega
    · simp [hc]

theorem readDigits_eq_ok_iff {limit n : Nat} :
    readDigits limit beyond cs = .ok n ↔
      IsNumeral cs ∧ n = Nat.ofDigitChars 10 cs 0 ∧ n ≤ limit := by
  unfold readDigits IsNumeral
  cases cs with
  | nil => simp
  | cons c cs =>
    simp only [isEmpty_cons, Bool.false_eq_true, if_false, ne_eq, reduceCtorEq,
      not_false_eq_true, true_and]
    exact readMagnitude_eq_ok_iff (Nat.zero_le _)

theorem map_readDigits_eq_ok_iff {limit : Nat} {f : Int → Int64} :
    (readDigits limit beyond cs >>= fun m => pure (m : Int)).map f = .ok n ↔
      IsNumeral cs ∧ Nat.ofDigitChars 10 cs 0 ≤ limit ∧ f (Nat.ofDigitChars 10 cs 0) = n := by
  simp only [map_eq_ok, bind_eq_ok, readDigits_eq_ok_iff]
  constructor
  · rintro ⟨_, ⟨_, ⟨hcs, rfl, hle⟩, hcast⟩, rfl⟩
    cases hcast
    exact ⟨hcs, hle, rfl⟩
  · rintro ⟨hcs, hle, rfl⟩
    exact ⟨_, ⟨_, ⟨hcs, rfl, hle⟩, rfl⟩, rfl⟩

/-- **A word is read from the texts that denote it**, a plus sign apart. -/
theorem readWord_eq_ok_iff (hplus : cs.head? ≠ some '+') :
    readWord cs = .ok n ↔ Denotes cs n.toInt := by
  have hlow := n.le_toInt
  have hhigh := n.toInt_lt
  constructor
  · intro h
    unfold readWord at h
    split at h
    · cases h
    · obtain ⟨hdigits, hle, rfl⟩ := map_readDigits_eq_ok_iff.1 h
      simp only [wordBound] at hle
      rw [Int64.toInt_ofInt_of_le (by omega) (by omega)]
      exact .negative hdigits
    · simp at hplus
    · obtain ⟨hdigits, hle, rfl⟩ := map_readDigits_eq_ok_iff.1 h
      simp only [wordBound] at hle
      rw [Int64.toInt_ofInt_of_le (by omega) (by omega)]
      exact .natural hdigits
  · intro h
    generalize hn : n.toInt = value at h
    cases h with
    | natural hdigits =>
      unfold readWord
      split
      · exact absurd rfl hdigits.1
      · exact absurd (hdigits.2 '-' (by simp)) (by decide)
      · simp at hplus
      · refine map_readDigits_eq_ok_iff.2 ⟨hdigits, ?_, ?_⟩
        · simp only [wordBound]
          omega
        · rw [← hn, Int64.ofInt_toInt]
    | negative hdigits =>
      refine map_readDigits_eq_ok_iff.2 ⟨hdigits, ?_, ?_⟩
      · simp only [wordBound]
        omega
      · rw [← hn, Int64.ofInt_toInt]

/-- The text of a number has no plus sign. -/
theorem Denotes.head?_ne_plus {n : Int} (h : Denotes cs n) : cs.head? ≠ some '+' := by
  cases h with
  | natural hdigits =>
    intro hhead
    exact absurd (hdigits.2 '+' (mem_of_head? hhead)) (by decide)
  | negative => simp

/-- A text denotes one number. -/
theorem Denotes.inj {m n : Int} (hm : Denotes cs m) (hn : Denotes cs n) : m = n := by
  cases hm with
  | natural hdigits =>
    cases hn with
    | natural => rfl
    | negative => exact absurd (hdigits.2 '-' (mem_cons_self ..)) (by decide)
  | negative hdigits =>
    generalize hcs : '-' :: _ = cs at hn
    cases hn with
    | natural hdigits' =>
      exact absurd (hdigits'.2 '-' (hcs ▸ mem_cons_self ..)) (by decide)
    | negative =>
      cases hcs
      rfl

theorem isNumeral_toDigits (n : Nat) : IsNumeral (Nat.toDigits 10 n) :=
  ⟨Nat.toDigits_ne_nil, fun _ hc => Nat.isDigit_of_mem_toDigits (by omega) (by omega) hc⟩

/-- The text of a word is its digits, behind a minus sign if negative. -/
theorem toList_wordText (n : Int64) :
    (wordText n).toList = if 0 ≤ n.toInt then Nat.toDigits 10 n.toInt.toNat
      else '-' :: Nat.toDigits 10 (-n.toInt).toNat := by
  have htext : wordText n = n.toInt.repr := rfl
  rw [htext, Int.repr_eq_if]
  split <;> simp [Nat.toList_repr]

/-- The text of a word denotes it. -/
theorem denotes_wordText (n : Int64) : Denotes (wordText n).toList n.toInt := by
  rw [toList_wordText]
  split
  · rename_i hsign
    have h := Denotes.natural (isNumeral_toDigits n.toInt.toNat)
    rwa [Nat.ofDigitChars_ten_toDigits, Int.toNat_of_nonneg hsign] at h
  · rename_i hsign
    have h := Denotes.negative (isNumeral_toDigits (-n.toInt).toNat)
    rwa [Nat.ofDigitChars_ten_toDigits, Int.toNat_of_nonneg (by omega), Int.neg_neg] at h

theorem toInt_neg_of_ne (h : n ≠ Int64.minValue) : (-n).toInt = -n.toInt := by
  have hlow := n.le_toInt
  have hhigh := n.toInt_lt
  have hne : n.toInt ≠ -2 ^ 63 := fun heq => h (Int64.toInt_inj.1 heq)
  rw [Int64.toInt_neg]
  exact Int.bmod_eq_of_le (by omega) (by omega)

/-- Two numerals around a point: their digits over the power of ten. -/
theorem readReal_of_isNumeral {whole fraction : List Char} (hwhole : IsNumeral whole)
    (hfraction : IsNumeral fraction) :
    readReal (whole ++ '.' :: fraction) =
      some (Float.ofScientific (Nat.ofDigitChars 10 (whole ++ fraction) 0) true
        fraction.length) := by
  have hsign : ∀ rest, whole ++ '.' :: fraction ≠ '-' :: rest := by
    intro rest heq
    cases whole with
    | nil => cases heq
    | cons c cs =>
      cases heq
      exact absurd (hwhole.2 '-' (by simp)) (by decide)
  have hpoint : ∀ c, ('.' :: fraction).head? = some c → c.isDigit = false := by
    intro c hc
    cases hc
    decide
  obtain ⟨htake, hdrop⟩ := takeWhile_dropWhile_append hwhole.2 hpoint
  have hall : fraction.all Char.isDigit = true := all_eq_true.2 hfraction.2
  have hmantissa : (whole ++ fraction).foldl (fun n c => n * 10 + digitValue c) 0 =
      Nat.ofDigitChars 10 (whole ++ fraction) 0 := by
    simp only [Nat.ofDigitChars_eq_foldl, digitValue, Nat.mul_comm]
  unfold readReal
  split
  rename_i negative body hbody
  split at hbody
  · rename_i heq
    exact absurd heq (hsign _)
  · cases hbody
    simp [htake, hdrop, hall, hmantissa, hwhole.1, hfraction.1]

end Decimal

end ImpMachine
