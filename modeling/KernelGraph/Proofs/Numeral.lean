import KernelGraph.Json.Reader
import Mathlib.Data.List.TakeWhile

/-!
Numerals in a text. What follows a numeral makes no difference to how it is read, as long as it does
not go on with a character that a numeral could hold (`scan?_append`). An integer is read back from
its own digits; a floating-point number is, if the digits that it is written with stand for it
(`Reproduced`).
-/

namespace KernelGraph

open Decimal

/-- The characters that a numeral is made of. -/
def isNumeral (c : Char) : Bool :=
  c.isDigit || c = '.' || c = 'e' || c = 'E' || c = '+' || c = '-'

/-- No numeral goes on in this text. -/
def EndsNumeral (rest : List Char) : Prop := ∀ c ∈ rest.head?, ¬ isNumeral c

namespace EndsNumeral

theorem nil : EndsNumeral [] := fun _ h => by cases h

theorem cons {c : Char} (hc : ¬ isNumeral c) (cs : List Char) : EndsNumeral (c :: cs) := by
  rintro d ⟨⟩
  exact hc

theorem ne_cons {rest cs : List Char} {c : Char} (h : EndsNumeral rest) (hc : isNumeral c) :
    rest ≠ c :: cs := by
  rintro rfl
  exact h c rfl hc

theorem takeWhile_isDigit {rest : List Char} (h : EndsNumeral rest) :
    rest.takeWhile Char.isDigit = [] := by
  cases rest with
  | nil => rfl
  | cons c cs =>
      have hc : ¬ c.isDigit := fun hdigit => h c rfl (by simp [isNumeral, hdigit])
      rw [List.takeWhile_cons_of_neg hc]

theorem dropWhile_isDigit {rest : List Char} (h : EndsNumeral rest) :
    rest.dropWhile Char.isDigit = rest := by
  have hall := List.takeWhile_append_dropWhile (p := Char.isDigit) (l := rest)
  rwa [h.takeWhile_isDigit] at hall

end EndsNumeral

namespace Decimal

section Append

variable {rest : List Char} (h : EndsNumeral rest)

include h

theorem takeWhile_isDigit_append (cs : List Char) :
    (cs ++ rest).takeWhile Char.isDigit = cs.takeWhile Char.isDigit := by
  rw [List.takeWhile_append]
  split
  · rename_i hall
    rw [h.takeWhile_isDigit, List.append_nil]
    exact ((List.takeWhile_prefix _).eq_of_length hall).symm
  · rfl

theorem dropWhile_isDigit_append (cs : List Char) :
    (cs ++ rest).dropWhile Char.isDigit = cs.dropWhile Char.isDigit ++ rest := by
  rw [List.dropWhile_append]
  split
  · rename_i hnil
    rw [List.isEmpty_iff.1 hnil, h.dropWhile_isDigit, List.nil_append]
  · rfl

theorem scanDigits?_append (cs : List Char) :
    scanDigits? (cs ++ rest) = (scanDigits? cs).map fun (ds, r) => (ds, r ++ rest) := by
  rw [scanDigits?, scanDigits?, takeWhile_isDigit_append h, dropWhile_isDigit_append h]
  dsimp only
  split <;> rfl

namespace Numeral

theorem scanSign_append (cs : List Char) :
    scanSign (cs ++ rest) = ((scanSign cs).1, (scanSign cs).2 ++ rest) := by
  cases cs with
  | nil =>
      rw [List.nil_append]
      unfold scanSign
      split
      · exact absurd rfl (h.ne_cons (by decide))
      · rfl
  | cons c cs =>
      by_cases hc : c = '-'
      · subst hc
        rfl
      · rw [List.cons_append]
        simp [scanSign, hc]

theorem scanWhole?_append (cs : List Char) :
    scanWhole? (cs ++ rest) = (scanWhole? cs).map fun (ds, r) => (ds, r ++ rest) := by
  rw [scanWhole?, scanWhole?, scanDigits?_append h]
  cases scanDigits? cs with
  | none => rfl
  | some out =>
      obtain ⟨ds, r⟩ := out
      rw [Option.map_some, Option.filter_some, Option.filter_some]
      by_cases hlead : (ds.head? != some '0' || ds.length == 1) = true
      · rw [if_pos hlead, if_pos hlead]
        rfl
      · rw [if_neg hlead, if_neg hlead]
        rfl

theorem scanFraction?_append (cs : List Char) :
    scanFraction? (cs ++ rest) = (scanFraction? cs).map fun (ds, r) => (ds, r ++ rest) := by
  cases cs with
  | nil =>
      rw [List.nil_append]
      unfold scanFraction?
      split
      · exact absurd rfl (h.ne_cons (by decide))
      · rfl
  | cons c cs =>
      by_cases hc : c = '.'
      · subst hc
        exact scanDigits?_append h cs
      · rw [List.cons_append]
        simp [scanFraction?, hc]

theorem scanPowerSign_append (cs : List Char) :
    scanPowerSign (cs ++ rest) = ((scanPowerSign cs).1, (scanPowerSign cs).2 ++ rest) := by
  cases cs with
  | nil =>
      rw [List.nil_append]
      unfold scanPowerSign
      split
      · exact absurd rfl (h.ne_cons (by decide))
      · exact absurd rfl (h.ne_cons (by decide))
      · rfl
  | cons c cs =>
      by_cases hminus : c = '-'
      · subst hminus
        rfl
      · by_cases hplus : c = '+'
        · subst hplus
          rfl
        · rw [List.cons_append]
          simp [scanPowerSign, hminus, hplus]

theorem scanPower?_append (cs : List Char) :
    scanPower? (cs ++ rest) = (scanPower? cs).map fun (e, r) => (e, r ++ rest) := by
  cases cs with
  | nil =>
      rw [List.nil_append]
      cases rest with
      | nil => rfl
      | cons c cs =>
          have hc : ¬ (c = 'e' ∨ c = 'E') := by
            rintro (rfl | rfl)
            · exact h.ne_cons (by decide) rfl
            · exact h.ne_cons (by decide) rfl
          show scanPower? (c :: cs) = some (none, c :: cs)
          rw [scanPower?, if_neg hc]
  | cons c cs =>
      rw [List.cons_append, scanPower?, scanPower?, scanPowerSign_append h]
      dsimp only
      by_cases hc : c = 'e' ∨ c = 'E'
      · rw [if_pos hc, if_pos hc, scanDigits?_append h]
        cases scanDigits? (scanPowerSign cs).2 <;> rfl
      · rw [if_neg hc, if_neg hc]
        rfl

/-- A numeral is read alike whatever follows it. -/
theorem scan?_append (cs : List Char) :
    scan? (cs ++ rest) = (scan? cs).map fun (n, r) => (n, r ++ rest) := by
  simp only [scan?, scanSign_append h, scanWhole?_append h, Option.bind_eq_bind]
  cases scanWhole? (scanSign cs).2 with
  | none => rfl
  | some whole =>
      simp only [Option.map_some, Option.bind_some, scanFraction?_append h]
      cases scanFraction? whole.2 with
      | none => rfl
      | some fraction =>
          simp only [Option.map_some, Option.bind_some, scanPower?_append h]
          cases scanPower? fraction.2 <;> rfl

end Numeral

end Append

/-! ### Integers -/

theorem digitChar_ne_zero : ∀ n < 10, 0 < n → n.digitChar ≠ '0' := by decide

/-- No number but zero is written with a zero in front. -/
theorem head?_toDigits {n : Nat} (h : 0 < n) : (Nat.toDigits 10 n).head? ≠ some '0' := by
  induction n using Nat.strong_induction_on with
  | _ n ih =>
      rw [Nat.toDigits_eq_if (by decide)]
      by_cases hlt : n < 10
      · rw [if_pos hlt]
        exact fun heq => digitChar_ne_zero n hlt h (Option.some.inj heq)
      · rw [if_neg hlt]
        have hhead := ih (n / 10) (by omega) (by omega)
        obtain ⟨c, cs, hcs⟩ := List.exists_cons_of_ne_nil
          (Nat.toDigits_ne_nil (n := n / 10) (b := 10))
        rw [hcs] at hhead ⊢
        exact hhead

theorem ofDigits_toDigits (n : Nat) : ofDigits (Nat.toDigits 10 n) = n :=
  Nat.ofDigitChars_ten_toDigits

theorem isDigit_of_mem_toDigits {n : Nat} : ∀ c ∈ Nat.toDigits 10 n, c.isDigit := fun _ =>
  Nat.isDigit_of_mem_toDigits (by decide) (by decide)

namespace Numeral

theorem scanWhole?_toDigits (n : Nat) :
    scanWhole? (Nat.toDigits 10 n) = some (Nat.toDigits 10 n, []) := by
  have htake : (Nat.toDigits 10 n).takeWhile Char.isDigit = Nat.toDigits 10 n :=
    List.takeWhile_eq_self_iff.2 isDigit_of_mem_toDigits
  have hdrop : (Nat.toDigits 10 n).dropWhile Char.isDigit = [] :=
    List.dropWhile_eq_nil_iff.2 isDigit_of_mem_toDigits
  have hdigits : scanDigits? (Nat.toDigits 10 n) = some (Nat.toDigits 10 n, []) := by
    rw [scanDigits?, htake, hdrop]
    simp
  rw [scanWhole?, hdigits, Option.filter_some]
  apply if_pos
  rcases Nat.eq_zero_or_pos n with rfl | hpos
  · rfl
  · simp [head?_toDigits hpos]

/-- The numeral that an integer is written as. -/
def ofInt (n : Int) : Numeral := ⟨n < 0, Nat.toDigits 10 n.natAbs, [], none⟩

theorem digits_ofInt (n : Int) : (ofInt n).digits = n.natAbs := by
  rw [digits, ofInt, List.append_nil, ofDigits_toDigits]

theorem toInt_ofInt (n : Int) : (ofInt n).toInt = n := by
  have hvalue : (ofInt n).toInt = if n < 0 then -(n.natAbs : Int) else n.natAbs := by
    rw [toInt, digits_ofInt]
    simp only [ofInt, decide_eq_true_eq]
  rw [hvalue]
  by_cases h : n < 0
  · rw [if_pos h]
    omega
  · rw [if_neg h]
    omega

theorem scanSign_toDigits (n : Nat) :
    scanSign (Nat.toDigits 10 n) = (false, Nat.toDigits 10 n) := by
  have hminus : '-' ∉ Nat.toDigits 10 n := fun hmem =>
    absurd (isDigit_of_mem_toDigits _ hmem) (by decide)
  unfold scanSign
  split
  · rename_i heq
    exact absurd (heq ▸ List.mem_cons_self) hminus
  · rfl

theorem scan?_toString (n : Int) : scan? (toString n).toList = some (ofInt n, []) := by
  cases n with
  | ofNat m =>
      have htext : (toString (Int.ofNat m)).toList = Nat.toDigits 10 m := by
        show (toString m).toList = _
        rw [Nat.toString_eq_ofList_toDigits, String.toList_ofList]
      rw [htext, scan?, scanSign_toDigits]
      simp [scanWhole?_toDigits, scanFraction?, scanPower?, ofInt]
  | negSucc m =>
      have htext : (toString (Int.negSucc m)).toList = '-' :: Nat.toDigits 10 (m + 1) := by
        show ("-" ++ toString (m + 1)).toList = _
        rw [Nat.toString_eq_ofList_toDigits, String.toList_append,
          String.toList_ofList (l := Nat.toDigits 10 (m + 1))]
        rfl
      rw [htext, scan?]
      simp [scanSign, scanWhole?_toDigits, scanFraction?, scanPower?, ofInt]

/-- An integer of a word is read back as such. -/
theorem toNumber?_ofInt {n : Int} (h : isWord n) : (ofInt n).toNumber? = some (.whole n) := by
  have hzero : ((ofInt n).negative && (ofInt n).digits == 0) = false := by
    rw [digits_ofInt]
    simp only [ofInt, Bool.and_eq_false_iff, decide_eq_false_iff_not, beq_eq_false_iff_ne]
    omega
  rw [toNumber?, toInt_ofInt, h, hzero]
  rfl

end Numeral

end Decimal

/-! ### Numbers that are read back -/

namespace Number

/-- A number is written as one numeral. -/
def Spelled (n : Number) : Prop := ∃ m, Numeral.scan? (Json.numberText n) = some (m, [])

/-- A number is the one that its text stands for. -/
def Reproduced (n : Number) : Prop :=
  ∃ m, Numeral.scan? (Json.numberText n) = some (m, []) ∧ m.toNumber? = some n

theorem Reproduced.spelled {n : Number} (h : n.Reproduced) : n.Spelled := by
  obtain ⟨m, hm, -⟩ := h
  exact ⟨m, hm⟩

theorem reproduced_whole {n : Int} (h : isWord n) : (Number.whole n).Reproduced :=
  ⟨_, Numeral.scan?_toString n, Numeral.toNumber?_ofInt h⟩

/-- Not every finite number is reproduced: this one is read as the number below it. -/
example : ¬ (Number.double (.ofScientific false 9222222222222221 (-15))).Reproduced := by
  rintro ⟨m, hm, hn⟩
  have hscan : Numeral.scan? (Json.numberText (.double (.ofScientific false 9222222222222221
      (-15)))) = some (⟨false, ['9'], "222222222222221".toList, none⟩, []) := by decide +kernel
  cases hscan.symm.trans hm
  exact absurd hn (by decide +kernel)

end Number

end KernelGraph
