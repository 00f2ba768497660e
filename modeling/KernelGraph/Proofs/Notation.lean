import KernelGraph.Proofs.Numeral
import KernelGraph.Proofs.RoundingError
import KernelGraph.Proofs.ShortestDigits

/-!
The JSON text of a finite number. It is digits, perhaps a point and more digits, and perhaps a power
of ten (`Layout`). However the digits of a number are laid out, a word holds them all, and the numeral
that is read has their value (`Style.exists_layout`). What is made of it is near to the number, though
it need not be the number itself; a number of 32 bits is what comes out when it is rounded once more
(`Number.exists_double_of_single`).
-/

namespace KernelGraph

namespace Decimal

/-! ### Runs of digits -/

/-- A text goes on with no digit. -/
def EndsDigits (rest : List Char) : Prop := ∀ c ∈ rest.head?, ¬c.isDigit

theorem scanDigits?_of_isDigit {ds rest : List Char} (hds : ∀ c ∈ ds, c.isDigit) (hne : ds ≠ [])
    (hrest : EndsDigits rest) : scanDigits? (ds ++ rest) = some (ds, rest) := by
  have hstop : rest.takeWhile Char.isDigit = [] ∧ rest.dropWhile Char.isDigit = rest := by
    cases rest with
    | nil => exact ⟨rfl, rfl⟩
    | cons c cs =>
        have hc : ¬c.isDigit := hrest c rfl
        exact ⟨List.takeWhile_cons_of_neg hc, List.dropWhile_cons_of_neg hc⟩
  rw [scanDigits?, List.takeWhile_append_of_pos hds, List.dropWhile_append_of_pos hds, hstop.1,
    hstop.2, List.append_nil]
  exact if_neg (by rwa [List.isEmpty_iff])

theorem ofDigits_append (ds rest : List Char) :
    ofDigits (ds ++ rest) = Nat.ofDigitChars 10 rest (ofDigits ds) :=
  Nat.ofDigitChars_append 0

/-- Zeros at the end multiply by ten. -/
theorem ofDigits_append_zeros (ds : List Char) (k : Nat) :
    ofDigits (ds ++ List.replicate k '0') = ofDigits ds * 10 ^ k := by
  induction k generalizing ds with
  | zero => rw [List.replicate_zero, List.append_nil, pow_zero, mul_one]
  | succ k ih =>
      have hone : ofDigits (ds ++ ['0']) = 10 * ofDigits ds := by
        rw [ofDigits_append]
        rfl
      rw [List.replicate_succ, List.append_cons, ih, hone, pow_succ]
      ring

/-- Zeros in front count for nothing. -/
theorem ofDigits_zeros_append (k : Nat) (ds : List Char) :
    ofDigits (List.replicate k '0' ++ ds) = ofDigits ds := by
  have hzeros := ofDigits_append_zeros [] k
  rw [List.nil_append] at hzeros
  rw [ofDigits_append, hzeros]
  exact congrArg (Nat.ofDigitChars 10 ds) (Nat.zero_mul _)

theorem ofDigits_lt {ds : List Char} (h : ∀ c ∈ ds, c.isDigit) : ofDigits ds < 10 ^ ds.length := by
  induction ds using List.reverseRecOn with
  | nil => exact Nat.one_pos
  | append_singleton ds c ih =>
      obtain ⟨hds, hc⟩ := List.forall_mem_append.1 h
      have hdigit : c.toNat - '0'.toNat < 10 := by
        have hhigh : c.toNat ≤ 57 := (Char.isDigit_iff_toNat.1 (hc c List.mem_cons_self)).2
        have hzero : '0'.toNat = 48 := rfl
        omega
      have hlast : ofDigits (ds ++ [c]) = 10 * ofDigits ds + (c.toNat - '0'.toNat) := by
        rw [ofDigits_append]
        rfl
      have hfront := ih hds
      rw [hlast, List.length_append, List.length_singleton, pow_succ]
      omega

/-- More digits make no smaller number. -/
theorem le_ofDigitChars (cs : List Char) (word : Nat) : word ≤ Nat.ofDigitChars 10 cs word := by
  rw [Nat.ofDigitChars_eq_ofDigitChars_zero]
  exact Nat.le_add_right_of_le (Nat.le_mul_of_pos_left word (Nat.pow_pos (by decide)))

/-- A word to which digits can be appended keeps them all. -/
theorem keepDigits_eq {cs : List Char} {word : Nat}
    (h : Nat.ofDigitChars 10 cs word < UInt64.size) :
    keepDigits word cs = (Nat.ofDigitChars 10 cs word, cs.length) := by
  induction cs generalizing word with
  | nil => rfl
  | cons c cs ih =>
      rw [Nat.ofDigitChars_cons] at h ⊢
      rw [keepDigits]
      dsimp only
      rw [if_pos ((le_ofDigitChars cs _).trans_lt h), ih h]
      rfl

theorem Numeral.kept_eq {n : Numeral} (h : n.digits < UInt64.size) :
    n.kept = (n.digits, n.exponent) := by
  rw [Numeral.digits, ofDigits_append] at h
  have hwhole : keepDigits 0 n.whole = (ofDigits n.whole, n.whole.length) :=
    keepDigits_eq ((le_ofDigitChars n.fraction _).trans_lt h)
  rw [Numeral.kept, hwhole]
  dsimp only
  rw [keepDigits_eq h, Numeral.digits, ofDigits_append, Numeral.exponent, Nat.sub_self]
  simp

/-! ### Layouts -/

/-- How digits are laid out: those before the point, those after it, and the power of ten. -/
structure Layout where
  whole : List Char
  fraction : List Char
  power : Option Int

namespace Layout

def pointed (fraction : List Char) : List Char :=
  if fraction.isEmpty then [] else '.' :: fraction

def powered : Option Int → List Char
  | none => []
  | some e => 'e' :: (if e < 0 then '-' else '+') :: Nat.toDigits 10 e.natAbs

def text (l : Layout) : List Char := l.whole ++ (pointed l.fraction ++ powered l.power)

/-- The number that all digits make without the point. -/
def word (l : Layout) : Nat := ofDigits (l.whole ++ l.fraction)

/-- The exponent of the last digit. -/
def exponent (l : Layout) : Int := l.power.getD 0 - l.fraction.length

def value (l : Layout) : ℚ := l.word * 10 ^ l.exponent

/-- A numeral can be laid out so, and it is no bare integer. -/
structure Valid (l : Layout) : Prop where
  whole : ∀ c ∈ l.whole, c.isDigit
  nonempty : l.whole ≠ []
  lead : l.whole.head? ≠ some '0' ∨ l.whole.length = 1
  fraction : ∀ c ∈ l.fraction, c.isDigit
  marked : l.fraction ≠ [] ∨ l.power ≠ none

theorem endsDigits_powered (power : Option Int) : EndsDigits (powered power) := by
  cases power with
  | none => exact fun c hc => by cases hc
  | some e =>
      rintro c ⟨⟩
      decide

theorem endsDigits_pointed (fraction : List Char) (power : Option Int) :
    EndsDigits (pointed fraction ++ powered power) := by
  unfold pointed
  split
  · exact endsDigits_powered power
  · rintro c ⟨⟩
    decide

theorem scanFraction?_pointed {fraction : List Char} (h : ∀ c ∈ fraction, c.isDigit)
    (power : Option Int) :
    Numeral.scanFraction? (pointed fraction ++ powered power) = some (fraction, powered power) := by
  unfold pointed
  split
  · rename_i hempty
    rw [List.isEmpty_iff.1 hempty]
    cases power <;> rfl
  · rename_i hne
    exact scanDigits?_of_isDigit h (by rwa [List.isEmpty_iff] at hne) (endsDigits_powered power)

theorem scanPower?_powered (power : Option Int) :
    Numeral.scanPower? (powered power) = some (power, []) := by
  cases power with
  | none => rfl
  | some e =>
      have hdigits : scanDigits? (Nat.toDigits 10 e.natAbs) =
          some (Nat.toDigits 10 e.natAbs, []) := by
        have hscan : scanDigits? (Nat.toDigits 10 e.natAbs ++ []) = _ :=
          scanDigits?_of_isDigit isDigit_of_mem_toDigits Nat.toDigits_ne_nil
            fun c hc => by cases hc
        rwa [List.append_nil] at hscan
      by_cases he : e < 0
      · rw [powered, if_pos he, Numeral.scanPower?, if_pos (.inl rfl)]
        simp only [Numeral.scanPowerSign, hdigits, ofDigits_toDigits, Option.map_some, if_true]
        rw [show -(e.natAbs : Int) = e by omega]
      · rw [powered, if_neg he, Numeral.scanPower?, if_pos (.inl rfl)]
        simp only [Numeral.scanPowerSign, hdigits, ofDigits_toDigits, Option.map_some,
          Bool.false_eq_true, if_false]
        rw [show (e.natAbs : Int) = e by omega]

variable {l : Layout}

/-- The numeral of a layout with its sign. -/
def numeral (l : Layout) (negative : Bool) : Numeral := ⟨negative, l.whole, l.fraction, l.power⟩

theorem scanSign_text (h : l.Valid) (negative : Bool) :
    Numeral.scanSign ((if negative then ['-'] else []) ++ l.text) = (negative, l.text) := by
  cases negative with
  | true => rfl
  | false =>
      obtain ⟨c, cs, hwhole⟩ := List.exists_cons_of_ne_nil h.nonempty
      have hc : c ≠ '-' := by
        rintro rfl
        exact absurd (h.whole '-' (hwhole ▸ List.mem_cons_self)) (by decide)
      rw [text, hwhole]
      simp [Numeral.scanSign, hc]

theorem scanWhole?_text (h : l.Valid) :
    Numeral.scanWhole? l.text = some (l.whole, pointed l.fraction ++ powered l.power) := by
  have hdigits : scanDigits? l.text = some (l.whole, pointed l.fraction ++ powered l.power) :=
    scanDigits?_of_isDigit h.whole h.nonempty (endsDigits_pointed l.fraction l.power)
  rw [Numeral.scanWhole?, hdigits, Option.filter_some]
  apply if_pos
  simpa using h.lead

/-- Nothing of a layout is lost when it is read. -/
theorem scan?_text (h : l.Valid) (negative : Bool) :
    Numeral.scan? ((if negative then ['-'] else []) ++ l.text) =
      some (l.numeral negative, []) := by
  rw [Numeral.scan?, scanSign_text h]
  dsimp only
  rw [scanWhole?_text h]
  simp only [Option.bind_eq_bind, Option.bind_some, scanFraction?_pointed h.fraction,
    scanPower?_powered]
  rfl

theorem bare_numeral (h : l.Valid) (negative : Bool) : (l.numeral negative).bare = false := by
  rw [Numeral.bare, Bool.and_eq_false_iff]
  refine h.marked.imp (fun hne => ?_) fun hne => ?_
  · rwa [List.isEmpty_eq_false_iff]
  · rwa [Option.isNone_eq_false_iff, Option.isSome_iff_ne_none]

/-- What a layout is read as is no integer. -/
theorem toNumber?_numeral (h : l.Valid) (negative : Bool) (hword : l.word < UInt64.size) :
    (l.numeral negative).toNumber? =
      if (Binary.ofRank negative (scaled l.word l.exponent) : Double).isFinite then
        some (.double (.ofRank negative (scaled l.word l.exponent))) else none := by
  have hkept : (l.numeral negative).kept = (l.word, l.exponent) := Numeral.kept_eq hword
  have hdouble : (l.numeral negative).toDouble =
      .ofRank negative (scaled l.word l.exponent) := by
    rw [Numeral.toDouble, hkept]
    rfl
  rw [Numeral.toNumber?, bare_numeral h, hdouble]
  rfl

end Layout

/-! ### Texts of numbers -/

theorem isDigit_of_mem_zeros (k : Nat) : ∀ c ∈ List.replicate k '0', c.isDigit := by
  intro c hc
  rw [List.eq_of_mem_replicate hc]
  rfl

section Digits

variable {digits : List Char} (hdigits : ∀ c ∈ digits, c.isDigit) (hne : digits ≠ [])

include hdigits hne

/-- Digits that all stand before the point, with zeros up to it and one after it. -/
theorem Layout.valid_padded (hlead : digits.head? ≠ some '0') (k : Nat) :
    (⟨digits ++ List.replicate k '0', ['0'], none⟩ : Layout).Valid ∧
      (⟨digits ++ List.replicate k '0', ['0'], none⟩ : Layout).word =
        ofDigits digits * 10 ^ (k + 1) ∧
      (⟨digits ++ List.replicate k '0', ['0'], none⟩ : Layout).value =
        ofDigits digits * 10 ^ (k : Int) := by
  have hword : (⟨digits ++ List.replicate k '0', ['0'], none⟩ : Layout).word =
      ofDigits digits * 10 ^ (k + 1) := by
    rw [← ofDigits_append_zeros, List.replicate_succ', ← List.append_assoc]
    rfl
  refine ⟨⟨?_, ?_, .inl ?_, isDigit_of_mem_zeros 1, .inl (List.cons_ne_nil _ _)⟩, hword, ?_⟩
  · exact List.forall_mem_append.2 ⟨hdigits, isDigit_of_mem_zeros k⟩
  · exact List.append_ne_nil_of_left_ne_nil hne _
  · rwa [List.head?_append_of_ne_nil _ hne]
  · rw [Layout.value, hword, pow_succ]
    push_cast
    show (ofDigits digits * (10 ^ k * 10) : ℚ) * 10 ^ (-1 : Int) = _
    rw [zpow_neg_one, zpow_natCast]
    ring

omit hne in
/-- Digits with the point among them. -/
theorem Layout.valid_cut (hlead : digits.head? ≠ some '0') {k : Nat} (hpos : 0 < k)
    (hk : k < digits.length) :
    (⟨digits.take k, digits.drop k, none⟩ : Layout).Valid ∧ digits.drop k ≠ [] ∧
      (⟨digits.take k, digits.drop k, none⟩ : Layout).word = ofDigits digits ∧
      (⟨digits.take k, digits.drop k, none⟩ : Layout).value =
        ofDigits digits * 10 ^ ((k : Int) - digits.length) := by
  have htake : digits.take k ≠ [] := by
    rw [← List.length_pos_iff, List.length_take]
    omega
  have hdrop : digits.drop k ≠ [] := by
    rw [← List.length_pos_iff, List.length_drop]
    omega
  have hword : (⟨digits.take k, digits.drop k, none⟩ : Layout).word = ofDigits digits :=
    congrArg ofDigits (List.take_append_drop k digits)
  refine ⟨⟨?_, htake, .inl ?_, ?_, .inl hdrop⟩, hdrop, hword, ?_⟩
  · exact fun c hc => hdigits c (List.mem_of_mem_take hc)
  · rwa [List.head?_take, if_neg (by omega)]
  · exact fun c hc => hdigits c (List.mem_of_mem_drop hc)
  · have hexponent : (0 : Int) - ((digits.length - k : Nat) : Int) = k - digits.length := by omega
    rw [Layout.value, hword, Layout.exponent, Option.getD_none, List.length_drop, hexponent]

/-- Digits that all stand after the point, with zeros up to them and one before it. -/
theorem Layout.valid_shifted (k : Nat) :
    (⟨['0'], List.replicate k '0' ++ digits, none⟩ : Layout).Valid ∧
      List.replicate k '0' ++ digits ≠ [] ∧
      (⟨['0'], List.replicate k '0' ++ digits, none⟩ : Layout).word = ofDigits digits ∧
      (⟨['0'], List.replicate k '0' ++ digits, none⟩ : Layout).value =
        ofDigits digits * 10 ^ (-(k : Int) - digits.length) := by
  have hfraction : List.replicate k '0' ++ digits ≠ [] :=
    List.append_ne_nil_of_right_ne_nil _ hne
  have hword : (⟨['0'], List.replicate k '0' ++ digits, none⟩ : Layout).word = ofDigits digits :=
    ofDigits_zeros_append (k + 1) digits
  refine ⟨⟨isDigit_of_mem_zeros 1, List.cons_ne_nil _ _, .inr rfl, ?_, .inl hfraction⟩,
    hfraction, hword, ?_⟩
  · exact List.forall_mem_append.2 ⟨isDigit_of_mem_zeros k, hdigits⟩
  · have hexponent : (0 : Int) - ((k + digits.length : Nat) : Int) = -k - digits.length := by omega
    rw [Layout.value, hword, Layout.exponent, Option.getD_none, List.length_append,
      List.length_replicate, hexponent]

omit hne in
/-- Digits with zeros after them make a word if they are few enough together. -/
theorem ofDigits_mul_lt {k : Nat} (hk : digits.length + k ≤ 17) :
    ofDigits digits * 10 ^ k < UInt64.size := by
  calc ofDigits digits * 10 ^ k < 10 ^ digits.length * 10 ^ k :=
        Nat.mul_lt_mul_of_pos_right (ofDigits_lt hdigits) (Nat.pow_pos (by decide))
    _ = 10 ^ (digits.length + k) := (Nat.pow_add 10 _ _).symm
    _ ≤ 10 ^ 17 := Nat.pow_le_pow_right (by decide) hk
    _ < UInt64.size := by decide

/-- Digits that are written out at their place, with a point. There is room in a word for them and
for the zeros up to the point and after it. -/
theorem Style.exists_layout_spread {style : Style} (hlead : digits.head? ≠ some '0')
    (hpoint : style.point) (hdigitsWord : ofDigits digits < UInt64.size) {grid : Int}
    (hfirst : grid + digits.length - 1 < 16) :
    ∃ l : Layout, style.spread digits grid (grid + digits.length - 1) = l.text ∧ l.Valid ∧
      l.word < UInt64.size ∧ l.value = ofDigits digits * 10 ^ grid := by
  have hlength : 0 < digits.length := List.length_pos_iff.2 hne
  unfold Style.spread
  by_cases hgrid : 0 ≤ grid
  · obtain ⟨k, rfl⟩ := Int.eq_ofNat_of_zero_le hgrid
    obtain ⟨hvalid, hword, hvalue⟩ := Layout.valid_padded hdigits hne hlead k
    refine ⟨_, ?_, hvalid, ?_, hvalue⟩
    · rw [if_pos hgrid, if_pos hpoint]
      rfl
    · rw [hword]
      exact ofDigits_mul_lt hdigits (by omega)
  · by_cases hfirst : 0 ≤ grid + digits.length - 1
    · obtain ⟨k, hk⟩ := Int.eq_ofNat_of_zero_le (show 0 ≤ grid + digits.length by omega)
      obtain ⟨hvalid, hdrop, hword, hvalue⟩ :=
        Layout.valid_cut hdigits hlead (show 0 < k by omega) (by omega)
      refine ⟨_, ?_, hvalid, hword.trans_lt hdigitsWord, ?_⟩
      · have hcut : (grid + digits.length - 1 + 1).toNat = k := by omega
        rw [if_neg hgrid, if_pos hfirst, hcut, Layout.text, Layout.pointed,
          if_neg (by rwa [List.isEmpty_iff])]
        simp [Layout.powered]
      · rw [hvalue, show (k : Int) - digits.length = grid by omega]
    · obtain ⟨k, hk⟩ := Int.eq_ofNat_of_zero_le (show 0 ≤ -(grid + digits.length - 1) - 1 by omega)
      obtain ⟨hvalid, hfraction, hword, hvalue⟩ := Layout.valid_shifted hdigits hne k
      refine ⟨_, ?_, hvalid, hword.trans_lt hdigitsWord, ?_⟩
      · rw [if_neg hgrid, if_neg hfirst, hk, Int.toNat_natCast, Layout.text, Layout.pointed,
          if_neg (by rwa [List.isEmpty_iff])]
        simp [Layout.powered]
      · rw [hvalue, show -(k : Int) - digits.length = grid by omega]

/-- Digits that are written with a power of ten. -/
theorem Style.exists_layout_scientific (grid : Int) :
    ∃ l : Layout, Style.scientific digits (grid + digits.length - 1) = l.text ∧ l.Valid ∧
      l.word = ofDigits digits ∧ l.value = ofDigits digits * 10 ^ grid := by
  have hlength : 0 < digits.length := List.length_pos_iff.2 hne
  have htake : (digits.take 1).length = 1 := by
    rw [List.length_take]
    omega
  have hword : (⟨digits.take 1, digits.drop 1, some (grid + digits.length - 1)⟩ : Layout).word =
      ofDigits digits := congrArg ofDigits (List.take_append_drop 1 digits)
  refine ⟨⟨digits.take 1, digits.drop 1, some (grid + digits.length - 1)⟩, ?_,
    ⟨?_, ?_, .inr htake, ?_, .inr (Option.some_ne_none _)⟩, hword, ?_⟩
  · simp [Style.scientific, Layout.text, Layout.pointed, Layout.powered]
  · exact fun c hc => hdigits c (List.mem_of_mem_take hc)
  · rw [← List.length_pos_iff, htake]
    exact Nat.one_pos
  · exact fun c hc => hdigits c (List.mem_of_mem_drop hc)
  · have hexponent : grid + digits.length - 1 - ((digits.length - 1 : Nat) : Int) = grid := by
      omega
    rw [Layout.value, hword, Layout.exponent, Option.getD_some, List.length_drop, hexponent]

end Digits

/-- The JSON text of a positive number lays out digits that a word holds, of a value that is rounded
to the number. -/
theorem Style.exists_layout {rank : Nat} (hpos : 0 < rank)
    (hrank : rank < Format.double.infinity) : ∃ (l : Layout) (x : ℚ),
      Style.jsonDouble.magnitude .double rank = l.text ∧ l.Valid ∧ l.word < UInt64.size ∧
        Format.double.Rounds rank x ∧ l.value = x * 2 ^ Format.double.exponent rank := by
  obtain ⟨n, g, hshortest, hn, hword, hrounds⟩ := shortest_spec hpos hrank Style.jsonDouble.tie
  have hdigits := isDigit_of_mem_toDigits (n := n)
  have hne : Nat.toDigits 10 n ≠ [] := Nat.toDigits_ne_nil
  have hlead := head?_toDigits hn
  have hlayout : ∃ l : Layout, Style.jsonDouble.magnitude .double rank = l.text ∧ l.Valid ∧
      l.word < UInt64.size ∧ l.value = ofDigits (Nat.toDigits 10 n) * 10 ^ g := by
    rw [magnitude, if_neg hpos.ne', hshortest]
    rw [← ofDigits_toDigits n] at hword
    dsimp only
    split
    · rename_i hpositional
      have hfirst : g + (Nat.toDigits 10 n).length - 1 < 16 := by
        simp only [Style.jsonDouble, Bool.and_eq_true, decide_eq_true_eq] at hpositional
        exact hpositional.2
      exact exists_layout_spread hdigits hne hlead rfl hword hfirst
    · obtain ⟨l, htext, hvalid, hsame, hvalue⟩ := exists_layout_scientific hdigits hne g
      exact ⟨l, htext, hvalid, hsame ▸ hword, hvalue⟩
  obtain ⟨l, htext, hvalid, hlword, hvalue⟩ := hlayout
  refine ⟨l, _, htext, hvalid, hlword, hrounds, ?_⟩
  rw [hvalue, ofDigits_toDigits, div_mul_cancel₀ _ (by positivity)]

/-- The JSON text of a finite number lays out digits that a word holds: a zero, or digits of a value
that is rounded to the number. -/
theorem exists_layout_double (negative : Bool) {rank : Fin (Format.double.infinity + 1)}
    (h : rank.val < Format.double.infinity) : ∃ l : Layout,
      Json.numberText (.double (.signed negative rank)) =
        (if negative then ['-'] else []) ++ l.text ∧ l.Valid ∧ l.word < UInt64.size ∧
      (rank.val = 0 ∧ l.word = 0 ∨ 0 < rank.val ∧ ∃ x, Format.double.Rounds rank x ∧
        l.value = x * 2 ^ Format.double.exponent rank) := by
  have hwrite : Json.numberText (.double (.signed negative rank)) =
      (if negative then ['-'] else []) ++ Style.jsonDouble.magnitude .double rank :=
    if_neg h.ne
  rw [hwrite]
  rcases Nat.eq_zero_or_pos rank.val with hzero | hpos
  · have hzeros : ∀ c ∈ ['0'], c.isDigit := isDigit_of_mem_zeros 1
    have hne : ['0'] ≠ [] := List.cons_ne_nil _ _
    refine ⟨⟨['0'], ['0'], none⟩, ?_, ⟨hzeros, hne, .inr rfl, hzeros, .inl hne⟩, by decide,
      .inl ⟨hzero, rfl⟩⟩
    rw [hzero]
    rfl
  · obtain ⟨l, x, htext, hvalid, hword, hrounds, hvalue⟩ := Style.exists_layout hpos h
    exact ⟨l, by rw [htext], hvalid, hword, .inr ⟨hpos, x, hrounds, hvalue⟩⟩

/-! ### Numbers of 32 bits -/

/-- The positive numbers of 32 bits are moderate ones among those of 64 bits. -/
theorem Format.single_value_bounds {rank : Nat} (hpos : 0 < rank) (hrank : rank < single.infinity) :
    1 / 2 ^ 149 ≤ single.value rank ∧ single.value rank ≤ 2 ^ 128 := by
  have hone : (1 : ℚ) ≤ single.significand rank := by exact_mod_cast significand_pos hpos
  have hm : (single.significand rank : ℚ) ≤ 2 ^ 24 := by
    have hlt : single.significand rank < 2 ^ 24 := single.significand_lt rank
    exact_mod_cast hlt.le
  have hsteps : single.steps rank ≤ 253 := by
    have hdiv : rank / single.unit < 255 := (Nat.div_lt_iff_lt_mul (unit_pos _)).2 hrank
    rw [steps]
    omega
  have hexponent : single.exponent rank = -149 + (single.steps rank : Int) := rfl
  rw [value]
  constructor
  · calc (1 / 2 ^ 149 : ℚ) = 1 * 2 ^ (-149 : Int) := by norm_num
      _ ≤ single.significand rank * 2 ^ single.exponent rank :=
        mul_le_mul hone (zpow_le_zpow_right₀ (by norm_num) (by omega)) (by positivity)
          (by positivity)
  · calc (single.significand rank * 2 ^ single.exponent rank : ℚ) ≤ 2 ^ 24 * 2 ^ (104 : Int) :=
        mul_le_mul hm (zpow_le_zpow_right₀ (by norm_num) (by omega)) (by positivity)
          (by positivity)
      _ = 2 ^ 128 := by norm_num

/-- A moderate number of 64 bits has all bits. -/
theorem Format.unit_le_of_value {rank : Nat} (h : 1 / 2 ^ 149 ≤ double.value rank) :
    double.unit ≤ double.significand rank := by
  refine unit_le_significand fun hsteps => ?_
  have hm : (double.significand rank : ℚ) ≤ 2 ^ 53 := by
    have hlt : double.significand rank < 2 ^ 53 := double.significand_lt rank
    exact_mod_cast hlt.le
  have hexponent : double.exponent rank = -1074 := by
    rw [exponent, hsteps]
    rfl
  have hsmall : double.value rank ≤ 2 ^ (-200 : Int) := by
    rw [value, hexponent]
    calc (double.significand rank * 2 ^ (-1074 : Int) : ℚ) ≤ 2 ^ (53 : Int) * 2 ^ (-1074 : Int) :=
          mul_le_mul_of_nonneg_right hm (by positivity)
      _ = 2 ^ (-1021 : Int) := by rw [← zpow_add₀ (by norm_num)]; norm_num
      _ ≤ 2 ^ (-200 : Int) := zpow_le_zpow_right₀ (by norm_num) (by norm_num)
  exact absurd (h.trans hsmall) (by norm_num)

/-- What is read of digits that stand for a number of 32 bits is narrowed to that number. -/
theorem narrow_scaled {rank wide word : Nat} {e : Int} {x : ℚ} (hpos : 0 < rank)
    (hrank : rank < Format.single.infinity)
    (hsame : Format.double.value wide = Format.single.value rank) (hword : word < UInt64.size)
    (hrounds : Format.double.Rounds wide x)
    (hvalue : (word * 10 ^ e : ℚ) = x * 2 ^ Format.double.exponent wide) (negative : Bool) :
    scaled word e < Format.double.infinity ∧
      (Binary.ofRank negative (scaled word e) : Double).narrow = .ofRank negative rank := by
  obtain ⟨hlow, hhigh⟩ := Format.single_value_bounds hpos hrank
  have hmeant := hrounds.near (Format.unit_le_of_value (hsame ▸ hlow))
  rw [← hvalue, hsame, Format.halfUnit_double] at hmeant
  have hge := hmeant.ge
  have hle := hmeant.le
  have hdecimal : (0 : ℚ) < word * 10 ^ e :=
    hmeant.pos (Format.value_pos_iff.2 hpos) (by norm_num)
  have hwordPos : 0 < word := by
    refine Nat.pos_of_ne_zero fun hzero => ?_
    rw [hzero, Nat.cast_zero, zero_mul] at hdecimal
    exact lt_irrefl _ hdecimal
  obtain ⟨hfinite, hread⟩ := near_scaled hwordPos hword
    (le_trans (by norm_num at hlow ⊢; linarith) hge) (hle.trans (by norm_num at hhigh ⊢; linarith))
  have hnear := hmeant.trans hread (by norm_num)
  have hunit : (Format.single.unit : ℚ) = 2 ^ 23 := by exact_mod_cast rfl
  refine ⟨hfinite, Binary.narrow_of_near hpos hrank hfinite hnear ?_ negative⟩
  rw [hunit]
  norm_num

end Decimal

open Decimal

namespace Number

theorem spelled_double {x : Double} (h : x.isFinite) : (Number.double x).Spelled := by
  cases x with
  | nan => cases h
  | signed negative rank =>
      have hrank : rank.val < Format.double.infinity :=
        lt_of_le_of_ne (Nat.le_of_lt_succ rank.isLt) (bne_iff_ne.1 h)
      obtain ⟨l, htext, hvalid, -⟩ := exists_layout_double negative hrank
      exact ⟨_, htext ▸ Layout.scan?_text hvalid negative⟩

/-- A finite number of 32 bits, widened and written, is read as a number that is narrowed to it. -/
theorem exists_double_of_single {x : Single} (h : x.isFinite) : ∃ (m : Numeral) (y : Double),
    Numeral.scan? (Json.numberText (.double x.widen)) = some (m, []) ∧
      m.toNumber? = some (.double y) ∧ y.narrow = x := by
  cases x with
  | nan => cases h
  | signed negative rank =>
      have hrank : rank.val < Format.single.infinity :=
        lt_of_le_of_ne (Nat.le_of_lt_succ rank.isLt) (bne_iff_ne.1 h)
      obtain ⟨wide, hwide, hsame⟩ := exists_double hrank
      rw [Binary.widen, Binary.convert_eq hrank hwide hsame, Binary.ofRank_of_lt hwide]
      have hrankWide : (⟨wide, Nat.lt_succ_of_lt hwide⟩ : Fin (Format.double.infinity + 1)).val <
          Format.double.infinity := hwide
      obtain ⟨l, htext, hvalid, hword, hcases⟩ := exists_layout_double negative hrankWide
      have hboth : 0 < wide ↔ 0 < rank.val := by
        rw [← Format.value_pos_iff, hsame, Format.value_pos_iff]
      have hnumber : scaled l.word l.exponent < Format.double.infinity ∧
          (Binary.ofRank negative (scaled l.word l.exponent) : Double).narrow =
            .signed negative rank := by
        rw [← Binary.ofRank_of_lt hrank]
        rcases hcases with ⟨hzero, hnone⟩ | ⟨hpos, y, hrounds, hvalue⟩
        · have hrankZero : rank.val = 0 := Nat.le_zero.1 (not_lt.1 (mt hboth.2 hzero.not_gt))
          have hscaled : scaled l.word l.exponent = 0 := by
            rw [hnone]
            rfl
          rw [hscaled, hrankZero]
          cases negative <;> decide
        · exact narrow_scaled (hboth.1 hpos) hrank hsame hword hrounds hvalue negative
      obtain ⟨hfinite, hnarrow⟩ := hnumber
      have hfinite' : (Binary.ofRank negative (scaled l.word l.exponent) : Double).isFinite := by
        rw [Binary.ofRank_of_lt hfinite]
        exact bne_iff_ne.2 hfinite.ne
      refine ⟨l.numeral negative, _, htext ▸ Layout.scan?_text hvalid negative, ?_, hnarrow⟩
      rw [Layout.toNumber?_numeral hvalid negative hword, if_pos hfinite']

end Number

end KernelGraph
