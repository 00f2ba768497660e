import KernelGraph.Proofs.Numeral

/-!
JSON text is read back. The text of a value splits into tokens that do not depend on the blanks it
is laid out with (`Token.ofChars_print`), and the tokens make a draft (`Draft.value_tokens`). The
draft is the value again if the numbers are read back one by one (`Json.Legible.toJson?_draft`).
-/

namespace KernelGraph

open Decimal

namespace Json

/-- Every number is a good one, and brackets nest at most `depth` deep. -/
inductive Shaped (good : Number → Prop) : Nat → Json → Prop
  | null (depth : Nat) : Shaped good depth .null
  | bool (depth : Nat) (b : Bool) : Shaped good depth (.bool b)
  | number (depth : Nat) {n : Number} : good n → Shaped good depth (.number n)
  | text (depth : Nat) (s : String) : Shaped good depth (.text s)
  | list {depth : Nat} {items : List Json} : (∀ item ∈ items, Shaped good depth item) →
      Shaped good (depth + 1) (.list items)
  | record {depth : Nat} {fields : List (String × Json)} :
      (∀ field ∈ fields, Shaped good depth field.2) → Shaped good (depth + 1) (.record fields)

/-- Every number is written as one numeral, and brackets nest at most `depth` deep. -/
abbrev Spelled : Nat → Json → Prop := Shaped Number.Spelled

/-- Every number is read back, and brackets nest at most `depth` deep. -/
abbrev Legible : Nat → Json → Prop := Shaped Number.Reproduced

theorem Shaped.imp {good better : Number → Prop} (hgood : ∀ n, better n → good n) {depth : Nat}
    {j : Json} (h : Shaped better depth j) : Shaped good depth j := by
  induction h with
  | null => exact .null _
  | bool => exact .bool _ _
  | number depth hn => exact .number _ (hgood _ hn)
  | text => exact .text _ _
  | list _ ih => exact .list ih
  | record _ ih => exact .record ih

theorem Legible.spelled {depth : Nat} {j : Json} (h : Legible depth j) : Spelled depth j :=
  h.imp fun _ => Number.Reproduced.spelled

theorem Shaped.mono {good : Number → Prop} {depth : Nat} {j : Json} (h : Shaped good depth j) :
    ∀ {deeper : Nat}, depth ≤ deeper → Shaped good deeper j := by
  induction h with
  | null => exact fun _ => .null _
  | bool => exact fun _ => .bool _ _
  | number depth hn => exact fun _ => .number _ hn
  | text => exact fun _ => .text _ _
  | list _ ih =>
      intro deeper hle
      obtain ⟨k, rfl⟩ := Nat.exists_eq_add_of_lt hle
      exact .list fun item hitem => ih item hitem (by omega)
  | record _ ih =>
      intro deeper hle
      obtain ⟨k, rfl⟩ := Nat.exists_eq_add_of_lt hle
      exact .record fun field hfield => ih field hfield (by omega)

/-- The numeral of a number's text. -/
def numeral (n : Number) : Numeral :=
  ((Numeral.scan? (numberText n)).map (·.1)).getD ⟨false, [], [], none⟩

end Json

theorem Number.Spelled.scan? {n : Number} (h : n.Spelled) :
    Numeral.scan? (Json.numberText n) = some (Json.numeral n, []) := by
  obtain ⟨m, hm⟩ := h
  rw [Json.numeral, hm]
  rfl

theorem Number.Reproduced.toNumber? {n : Number} (h : n.Reproduced) :
    (Json.numeral n).toNumber? = some n := by
  obtain ⟨m, hm, hn⟩ := h
  rw [Json.numeral, hm]
  exact hn

/-! ### Tokens -/

namespace Json

mutual

/-- The tokens of a value's text. -/
def tokens : Json → List Token
  | .null => [.null]
  | .bool b => [.bool b]
  | .number n => [.number (numeral n)]
  | .text s => [.text (some s)]
  | .list [] => [.openList, .closeList]
  | .list (item :: items) => .openList :: item.tokens ++ itemTokens items ++ [.closeList]
  | .record [] => [.openRecord, .closeRecord]
  | .record ((name, value) :: fields) =>
    .openRecord :: .text (some name) :: .colon :: value.tokens ++ fieldTokens fields
      ++ [.closeRecord]

/-- The tokens of the items after the first one. -/
def itemTokens : List Json → List Token
  | [] => []
  | item :: items => .comma :: item.tokens ++ itemTokens items

/-- The tokens of the fields after the first one. -/
def fieldTokens : List (String × Json) → List Token
  | [] => []
  | (name, value) :: fields =>
    .comma :: .text (some name) :: .colon :: value.tokens ++ fieldTokens fields

end

/-- Nothing but blanks lays a text out. -/
structure Blanks.Blank (blanks : Blanks) : Prop where
  line : ∀ depth, ∀ c ∈ blanks.line depth, Token.isBlank c
  gap : ∀ c ∈ blanks.gap, Token.isBlank c

theorem Blanks.blank_compact : Blanks.compact.Blank :=
  ⟨fun _ _ h => (by cases h), fun _ h => by cases h⟩

theorem Blanks.blank_indented : Blanks.indented.Blank := by
  refine ⟨fun depth c hc => ?_, fun c hc => ?_⟩
  · rcases List.mem_cons.1 hc with rfl | hc
    · rfl
    · rw [List.eq_of_mem_replicate hc]
      rfl
  · rw [List.mem_singleton.1 hc]
    rfl

end Json

namespace Token

theorem ofChars_cons {c : Char} (hc : ¬ isBlank c) (cs : List Char) :
    ofChars (c :: cs) = (next c cs).1 :: ofChars (next c cs).2 := by
  rw [ofChars, if_neg hc]

theorem ofChars_append_of_blank {blanks : List Char} (h : ∀ c ∈ blanks, isBlank c)
    (cs : List Char) : ofChars (blanks ++ cs) = ofChars cs := by
  induction blanks with
  | nil => rfl
  | cons c blanks ih =>
      obtain ⟨hc, hblanks⟩ := List.forall_mem_cons.1 h
      rw [List.cons_append, ofChars, if_pos hc, ih hblanks]

theorem ofChars_openList (cs : List Char) : ofChars ('[' :: cs) = .openList :: ofChars cs :=
  ofChars_cons (by decide) cs

theorem ofChars_closeList (cs : List Char) : ofChars (']' :: cs) = .closeList :: ofChars cs :=
  ofChars_cons (by decide) cs

theorem ofChars_openRecord (cs : List Char) : ofChars ('{' :: cs) = .openRecord :: ofChars cs :=
  ofChars_cons (by decide) cs

theorem ofChars_closeRecord (cs : List Char) : ofChars ('}' :: cs) = .closeRecord :: ofChars cs :=
  ofChars_cons (by decide) cs

theorem ofChars_comma (cs : List Char) : ofChars (',' :: cs) = .comma :: ofChars cs :=
  ofChars_cons (by decide) cs

theorem ofChars_colon (cs : List Char) : ofChars (':' :: cs) = .colon :: ofChars cs :=
  ofChars_cons (by decide) cs

theorem code?_hexDigit : ∀ n < 32,
    code? '0' '0' (hexDigit (n / 16)) (hexDigit (n % 16)) = some n := by decide

theorem ofChars_null (cs : List Char) : ofChars ("null".toList ++ cs) = .null :: ofChars cs :=
  ofChars_cons (by decide) _

theorem ofChars_true (cs : List Char) : ofChars ("true".toList ++ cs) = .bool true :: ofChars cs :=
  ofChars_cons (by decide) _

theorem ofChars_false (cs : List Char) :
    ofChars ("false".toList ++ cs) = .bool false :: ofChars cs :=
  ofChars_cons (by decide) _

/-- A code below those of surrogates is a character by itself. -/
theorem decode?_code {n : Nat} (h : n < 0xD800) (ps : List Piece) :
    decode? (.code n :: ps) = (Char.ofNat n :: ·) <$> decode? ps := by
  cases ps with
  | nil =>
      rw [decode?]
      exact if_neg (by omega)
  | cons p ps =>
      cases p with
      | char c =>
          rw [decode?]
          exact if_neg (by omega)
      | code lo => rw [decode?, if_neg (by omega), if_neg (by omega)]

theorem scanText?_code {a b c d : Char} {n : Nat} (h : code? a b c d = some n) (cs : List Char) :
    scanText? ('\\' :: 'u' :: a :: b :: c :: d :: cs) =
      (scanText? cs).map fun (ps, rest) => (.code n :: ps, rest) := by
  rw [scanText?, h, Option.map_eq_bind]
  rfl

theorem scanText?_unescape {c x : Char} (h : unescape? c = some x) (cs : List Char) :
    scanText? ('\\' :: c :: cs) =
      (scanText? cs).map fun (ps, rest) => (.char x :: ps, rest) := by
  have hletter : c ≠ 'u' := by
    rintro rfl
    cases h
  rw [scanText?, h, Option.map_eq_bind]
  · rfl
  · exact fun _ _ _ _ _ heq _ => hletter heq

/-- A character is read back from how it stands in a string. -/
theorem exists_piece (c : Char) : ∃ p,
    (∀ cs, scanText? (Json.escape c ++ cs) = (scanText? cs).map fun (ps, rest) => (p :: ps, rest)) ∧
    ∀ ps, decode? (p :: ps) = (c :: ·) <$> decode? ps := by
  have hchar : ∀ c ps, decode? (.char c :: ps) = (c :: ·) <$> decode? ps := fun c ps => by
    rw [decode?]
  unfold Json.escape
  split
  case h_8 hquote hbackslash _ _ _ _ _ =>
    by_cases hcontrol : c.toNat < 32
    · rw [if_pos hcontrol]
      refine ⟨.code c.toNat, fun cs => ?_, fun ps => ?_⟩
      · exact scanText?_code (code?_hexDigit c.toNat hcontrol) cs
      · rw [decode?_code (by omega), Char.ofNat_toNat]
    · rw [if_neg hcontrol]
      refine ⟨.char c, fun cs => ?_, hchar c⟩
      have hplain : ¬ (c.toNat < 32 ∨ c = '\\') := fun h => h.elim hcontrol hbackslash
      rw [List.singleton_append, scanText?, if_neg hplain, Option.map_eq_bind]
      · rfl
      · exact hquote
      · exact fun _ _ _ _ _ h _ => hbackslash h
      · exact fun _ _ h _ => hbackslash h
  all_goals
    exact ⟨.char _, fun cs => scanText?_unescape rfl cs, hchar _⟩

/-- A string is read back from between its quotes. -/
theorem scanText?_quote (cs rest : List Char) : ∃ ps,
    scanText? (cs.flatMap Json.escape ++ '"' :: rest) = some (ps, rest) ∧ decode? ps = some cs := by
  induction cs with
  | nil => exact ⟨[], by rw [List.flatMap_nil, List.nil_append, scanText?], by rw [decode?]⟩
  | cons c cs ih =>
      obtain ⟨ps, hscan, hdecode⟩ := ih
      obtain ⟨p, hp, hc⟩ := exists_piece c
      refine ⟨p :: ps, ?_, ?_⟩
      · rw [List.flatMap_cons, List.append_assoc, hp, hscan]
        rfl
      · rw [hc, hdecode]
        rfl

theorem ofChars_quote (s : String) (rest : List Char) :
    ofChars (Json.quote s ++ rest) = .text (some s) :: ofChars rest := by
  obtain ⟨ps, hscan, hdecode⟩ := scanText?_quote s.toList rest
  have hnext : next '"' (s.toList.flatMap Json.escape ++ '"' :: rest) = (.text (some s), rest) := by
    rw [next, hscan]
    dsimp only
    rw [hdecode, Option.map_some, String.ofList_toList]
  have hquote : Json.quote s ++ rest = '"' :: (s.toList.flatMap Json.escape ++ '"' :: rest) := by
    simp [Json.quote]
  rw [hquote, ofChars_cons (by decide), hnext]

/-- A numeral starts with its sign or a digit. -/
theorem isNumeral_of_scan? {c : Char} {cs rest : List Char} {n : Numeral}
    (h : Numeral.scan? (c :: cs) = some (n, rest)) : c = '-' ∨ c.isDigit := by
  by_contra hc
  obtain ⟨hminus, hdigit⟩ := not_or.1 hc
  have hsign : Numeral.scanSign (c :: cs) = (false, c :: cs) := by simp [Numeral.scanSign, hminus]
  have hnone : Numeral.scanWhole? (c :: cs) = none := by
    rw [Numeral.scanWhole?, scanDigits?, List.takeWhile_cons_of_neg hdigit]
    rfl
  rw [Numeral.scan?, hsign] at h
  simp [hnone] at h

/-- A number that is written as one numeral is one token. -/
theorem ofChars_number {n : Number} (h : n.Spelled) {rest : List Char}
    (hrest : EndsNumeral rest) :
    ofChars (Json.numberText n ++ rest) = .number (Json.numeral n) :: ofChars rest := by
  have hscan : Numeral.scan? (Json.numberText n ++ rest) = some (Json.numeral n, rest) := by
    rw [Numeral.scan?_append hrest, h.scan?]
    rfl
  generalize Json.numberText n ++ rest = cs at hscan
  cases cs with
  | nil => cases hscan
  | cons c cs =>
      have hstart := isNumeral_of_scan? hscan
      have hblank : ¬ isBlank c := by
        intro hc
        simp only [isBlank, Bool.or_eq_true, decide_eq_true_eq] at hc
        rcases hc with ((rfl | rfl) | rfl) | rfl <;> exact absurd hstart (by decide)
      have hnext : next c cs = (.number (Json.numeral n), rest) := by
        unfold next
        split
        case h_11 =>
          rw [hscan]
        all_goals exact absurd hstart (by decide)
      rw [ofChars_cons hblank, hnext]

end Token

theorem EndsNumeral.append_of_blank {bs cs : List Char} (h : ∀ c ∈ bs, Token.isBlank c)
    (hcs : EndsNumeral cs) : EndsNumeral (bs ++ cs) := by
  cases bs with
  | nil => exact hcs
  | cons c bs =>
      refine .cons ?_ _
      have hc := h c List.mem_cons_self
      simp only [Token.isBlank, Bool.or_eq_true, decide_eq_true_eq] at hc
      rcases hc with ((rfl | rfl) | rfl) | rfl <;> decide

namespace Token

variable {blanks : Json.Blanks}

/-- Items are separated by commas, at which no numeral goes on. -/
theorem ofChars_printItems (hblanks : blanks.Blank) {items : List Json}
    (h : ∀ item ∈ items, ∀ (d : Nat) {rest : List Char}, EndsNumeral rest →
      ofChars (item.print blanks d ++ rest) = item.tokens ++ ofChars rest)
    (d : Nat) {rest : List Char} (hrest : EndsNumeral rest) :
    EndsNumeral (Json.printItems blanks d items ++ rest) ∧
      ofChars (Json.printItems blanks d items ++ rest) = Json.itemTokens items ++ ofChars rest := by
  induction items with
  | nil => exact ⟨hrest, rfl⟩
  | cons item items ih =>
      obtain ⟨hitem, hitems⟩ := List.forall_mem_cons.1 h
      obtain ⟨hends, htokens⟩ := ih hitems
      rw [Json.printItems, Json.itemTokens]
      simp only [List.append_assoc, List.cons_append]
      refine ⟨.cons (by decide) _, ?_⟩
      rw [ofChars_comma, ofChars_append_of_blank (hblanks.line d), hitem d hends, htokens]

theorem ofChars_printFields (hblanks : blanks.Blank) {fields : List (String × Json)}
    (h : ∀ field ∈ fields, ∀ (d : Nat) {rest : List Char}, EndsNumeral rest →
      ofChars (field.2.print blanks d ++ rest) = field.2.tokens ++ ofChars rest)
    (d : Nat) {rest : List Char} (hrest : EndsNumeral rest) :
    EndsNumeral (Json.printFields blanks d fields ++ rest) ∧
      ofChars (Json.printFields blanks d fields ++ rest) =
        Json.fieldTokens fields ++ ofChars rest := by
  induction fields with
  | nil => exact ⟨hrest, rfl⟩
  | cons field fields ih =>
      obtain ⟨name, value⟩ := field
      obtain ⟨hvalue, hfields⟩ := List.forall_mem_cons.1 h
      obtain ⟨hends, htokens⟩ := ih hfields
      rw [Json.printFields, Json.fieldTokens]
      simp only [List.append_assoc, List.cons_append]
      refine ⟨.cons (by decide) _, ?_⟩
      rw [ofChars_comma, ofChars_append_of_blank (hblanks.line d), ofChars_quote, ofChars_colon,
        ofChars_append_of_blank hblanks.gap, hvalue d hends, htokens]

/-- The text of a value has the value's tokens, however it is laid out. -/
theorem ofChars_print (hblanks : blanks.Blank) {depth : Nat} {j : Json} (h : j.Spelled depth)
    (d : Nat) {rest : List Char} (hrest : EndsNumeral rest) :
    ofChars (j.print blanks d ++ rest) = j.tokens ++ ofChars rest := by
  induction h generalizing d rest with
  | null => exact ofChars_null rest
  | bool depth b =>
      cases b with
      | false => exact ofChars_false rest
      | true => exact ofChars_true rest
  | number depth hn => exact ofChars_number hn hrest
  | text depth s => exact ofChars_quote s rest
  | @list depth items _ ih =>
      cases items with
      | nil => exact (ofChars_openList _).trans (congrArg _ (ofChars_closeList rest))
      | cons item items =>
          obtain ⟨hitem, hitems⟩ := List.forall_mem_cons.1 ih
          have hclose : EndsNumeral (blanks.line d ++ ']' :: rest) :=
            .append_of_blank (hblanks.line d) (.cons (by decide) rest)
          obtain ⟨hends, htokens⟩ := ofChars_printItems hblanks hitems (d + 1) hclose
          rw [Json.print, Json.tokens]
          simp only [List.append_assoc, List.cons_append, List.nil_append]
          rw [ofChars_openList, ofChars_append_of_blank (hblanks.line _), hitem _ hends, htokens,
            ofChars_append_of_blank (hblanks.line d), ofChars_closeList]
  | @record depth fields _ ih =>
      cases fields with
      | nil => exact (ofChars_openRecord _).trans (congrArg _ (ofChars_closeRecord rest))
      | cons field fields =>
          obtain ⟨name, value⟩ := field
          obtain ⟨hvalue, hfields⟩ := List.forall_mem_cons.1 ih
          have hclose : EndsNumeral (blanks.line d ++ '}' :: rest) :=
            .append_of_blank (hblanks.line d) (.cons (by decide) rest)
          obtain ⟨hends, htokens⟩ := ofChars_printFields hblanks hfields (d + 1) hclose
          rw [Json.print, Json.tokens]
          simp only [List.append_assoc, List.cons_append, List.nil_append]
          rw [ofChars_openRecord, ofChars_append_of_blank (hblanks.line _), ofChars_quote,
            ofChars_colon, ofChars_append_of_blank hblanks.gap, hvalue _ hends, htokens,
            ofChars_append_of_blank (hblanks.line d), ofChars_closeRecord]

end Token

/-! ### Drafts -/

namespace Json

mutual

/-- What the text of a value says. -/
def draft : Json → Draft
  | .null => .null
  | .bool b => .bool b
  | .number n => .number (numeral n)
  | .text s => .text (some s)
  | .list items => .list (itemDrafts items) true
  | .record fields => .record (fieldDrafts fields) true

def itemDrafts : List Json → List Draft
  | [] => []
  | item :: items => item.draft :: itemDrafts items

def fieldDrafts : List (String × Json) → List (Draft × Draft)
  | [] => []
  | (name, value) :: fields => (.text (some name), value.draft) :: fieldDrafts fields

end

theorem itemDrafts_eq_map (items : List Json) : itemDrafts items = items.map draft := by
  induction items with
  | nil => rfl
  | cons item items ih => rw [itemDrafts, ih, List.map_cons]

theorem fieldDrafts_eq_map (fields : List (String × Json)) :
    fieldDrafts fields = fields.map fun (name, value) => (.text (some name), value.draft) := by
  induction fields with
  | nil => rfl
  | cons field fields ih => rw [fieldDrafts, ih, List.map_cons]

end Json

namespace Draft

/-- No value starts with a closing bracket. -/
theorem exists_tokens (j : Json) : ∃ t ts, j.tokens = t :: ts ∧ t ≠ .closeList := by
  match j with
  | .null => exact ⟨_, _, rfl, by decide⟩
  | .bool _ | .number _ | .text _ => exact ⟨_, _, rfl, nofun⟩
  | .list [] | .list (_ :: _) | .record [] | .record (_ :: _) => exact ⟨_, _, rfl, nofun⟩

theorem value_openList (j : Json) (stack : List Opening) (ts : List Token) :
    value stack (.openList :: (j.tokens ++ ts)) = value (.list [] :: stack) (j.tokens ++ ts) := by
  obtain ⟨t, ts', htokens, ht⟩ := exists_tokens j
  rw [htokens]
  exact value.eq_6 stack _ fun rest heq => ht (List.cons.inj heq).1

section Items

variable {stack : List Opening}

/-- The items of a list are taken in order, until it is closed. -/
theorem after_itemTokens {items : List Json}
    (h : ∀ item ∈ items, ∀ stack ts, value stack (item.tokens ++ ts) = after stack item.draft ts)
    (taken : List Draft) (d : Draft) (ts : List Token) :
    after (.list taken :: stack) d (Json.itemTokens items ++ .closeList :: ts) =
      after stack (.list (taken.reverse ++ d :: Json.itemDrafts items) true) ts := by
  induction items generalizing taken d with
  | nil =>
      rw [Json.itemTokens, List.nil_append, after, List.reverse_cons, Json.itemDrafts]
  | cons item items ih =>
      obtain ⟨hitem, hitems⟩ := List.forall_mem_cons.1 h
      rw [Json.itemTokens, Json.itemDrafts]
      simp only [List.append_assoc, List.cons_append]
      rw [after, hitem, ih hitems, List.reverse_cons, List.append_assoc, List.singleton_append]

theorem after_fieldTokens {fields : List (String × Json)}
    (h : ∀ field ∈ fields, ∀ stack ts,
      value stack (field.2.tokens ++ ts) = after stack field.2.draft ts)
    (taken : List (Draft × Draft)) (name d : Draft) (ts : List Token) :
    after (.record taken name :: stack) d (Json.fieldTokens fields ++ .closeRecord :: ts) =
      after stack (.record (taken.reverse ++ (name, d) :: Json.fieldDrafts fields) true) ts := by
  induction fields generalizing taken name d with
  | nil => rw [Json.fieldTokens, List.nil_append, after, List.reverse_cons, Json.fieldDrafts]
  | cons field fields ih =>
      obtain ⟨hfield, hfields⟩ := List.forall_mem_cons.1 h
      rw [Json.fieldTokens, Json.fieldDrafts]
      simp only [List.append_assoc, List.cons_append]
      rw [after, Draft.name, hfield, ih hfields, List.reverse_cons, List.append_assoc,
        List.singleton_append]

end Items

/-- The tokens of a value are taken as the value. -/
theorem value_tokens {depth : Nat} {j : Json} (h : j.Spelled depth) (stack : List Opening)
    (ts : List Token) : value stack (j.tokens ++ ts) = after stack j.draft ts := by
  induction h generalizing stack ts with
  | null => exact value.eq_1 stack ts
  | bool depth b => exact value.eq_2 stack b ts
  | number => exact value.eq_3 stack _ ts
  | text depth s => exact value.eq_4 stack _ ts
  | @list depth items _ ih =>
      cases items with
      | nil => exact value.eq_5 stack ts
      | cons item items =>
          obtain ⟨hitem, hitems⟩ := List.forall_mem_cons.1 ih
          rw [Json.tokens]
          simp only [List.append_assoc, List.cons_append, List.nil_append]
          rw [value_openList, hitem, after_itemTokens hitems]
          rfl
  | @record depth fields _ ih =>
      cases fields with
      | nil => exact value.eq_7 stack ts
      | cons field fields =>
          obtain ⟨hfield, hfields⟩ := List.forall_mem_cons.1 ih
          rw [Json.tokens]
          simp only [List.append_assoc, List.cons_append, List.nil_append]
          have hname : value stack (.openRecord :: .text (some field.1) :: .colon ::
              (field.2.tokens ++ (Json.fieldTokens fields ++ .closeRecord :: ts))) = 
              value (.record [] (.text (some field.1)) :: stack)
                (field.2.tokens ++ (Json.fieldTokens fields ++ .closeRecord :: ts)) := by
            rw [value, name]
            nofun
          rw [hname, hfield, after_fieldTokens hfields]
          rfl

/-- The text of a value says the value, and nothing else. -/
theorem ofText_toText {depth : Nat} {j : Json} (h : j.Spelled depth) (indented : Bool) :
    ofText (j.toText indented) = ⟨j.draft, true⟩ := by
  have hprint : ∀ blanks : Json.Blanks, blanks.Blank →
      ofText (.ofList (j.print blanks 0)) = ⟨j.draft, true⟩ := by
    intro blanks hblanks
    have htokens := Token.ofChars_print hblanks h 0 .nil
    have hnil : Token.ofChars [] = [] := by rw [Token.ofChars]
    rw [List.append_nil, hnil] at htokens
    rw [ofText, String.toList_ofList, htokens, value_tokens h]
    rw [after]
    rfl
  cases indented with
  | false => exact hprint _ Json.Blanks.blank_compact
  | true => exact hprint _ Json.Blanks.blank_indented

/-- A whole text is read if its value is, and nothing else stands there. -/
theorem readWhole_eq_ok_iff {α : Type} {item : Draft → Read α} {text : String} {x : α} :
    readWhole item text = .ok x ↔
      item (ofText text).draft = .ok x ∧ (ofText text).alone = true := by
  dsimp only [readWhole]
  cases item (ofText text).draft with
  | error e =>
      constructor
      · intro h
        cases h
      · rintro ⟨h, -⟩
        cases h
  | ok x' =>
      cases (ofText text).alone with
      | true => exact (and_iff_left rfl).symm
      | false =>
          constructor
          · intro h
            cases h
          · rintro ⟨-, h⟩
            cases h

/-- Reading the text of a value is reading the value. -/
theorem readWhole_toText {α : Type} {depth : Nat} {j : Json} (h : j.Spelled depth)
    (item : Draft → Read α) (indented : Bool) :
    readWhole item (j.toText indented) = item j.draft := by
  rw [readWhole, ofText_toText h]
  exact bind_pure _

end Draft

namespace Json

theorem itemsToJson?_itemDrafts {depth : Nat} {items : List Json}
    (h : ∀ item ∈ items, item.draft.toJson? depth = some item) :
    Draft.itemsToJson? depth (itemDrafts items) = some items := by
  induction items with
  | nil => rfl
  | cons item items ih =>
      obtain ⟨hitem, hitems⟩ := List.forall_mem_cons.1 h
      rw [itemDrafts, Draft.itemsToJson?, hitem, ih hitems]
      rfl

theorem fieldsToJson?_fieldDrafts {depth : Nat} {fields : List (String × Json)}
    (h : ∀ field ∈ fields, field.2.draft.toJson? depth = some field.2) :
    Draft.fieldsToJson? depth (fieldDrafts fields) = some fields := by
  induction fields with
  | nil => rfl
  | cons field fields ih =>
      obtain ⟨hfield, hfields⟩ := List.forall_mem_cons.1 h
      rw [fieldDrafts, Draft.fieldsToJson?, hfield, ih hfields]
      rfl

/-- What the text of a value says is the value. -/
theorem Legible.toJson?_draft {depth : Nat} {j : Json} (h : j.Legible depth) :
    j.draft.toJson? depth = some j := by
  induction h with
  | null | bool | text => rfl
  | number depth hn =>
      rw [draft, Draft.toJson?, hn.toNumber?]
      rfl
  | list _ ih =>
      rw [draft, Draft.toJson?, Nat.add_sub_cancel, itemsToJson?_itemDrafts ih]
      rfl
  | record _ ih =>
      rw [draft, Draft.toJson?, Nat.add_sub_cancel, fieldsToJson?_fieldDrafts ih]
      rfl

/-- A text is read back as its value, in canonical form. -/
theorem Legible.read_toText {depth : Nat} {j : Json} (h : j.Legible depth)
    (hdepth : depth ≤ maxDepth) (indented : Bool) : read (j.toText indented) = .ok j.canonical := by
  rw [read, Draft.readWhole, Draft.ofText_toText h.spelled]
  dsimp only
  rw [Legible.toJson?_draft (h.mono hdepth)]
  rfl

end Json

end KernelGraph
