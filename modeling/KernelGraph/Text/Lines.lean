/-!
The lines of a text. A line ends with a line feed, and a carriage return before that belongs to the
end; what follows the last line feed is a line if there is something.
-/

namespace KernelGraph.Lines

def ofChars : List Char → List (List Char)
  | [] => []
  | '\r' :: '\n' :: cs => [] :: ofChars cs
  | '\n' :: cs => [] :: ofChars cs
  | c :: cs =>
    match ofChars cs with
    | [] => [[c]]
    | line :: lines => (c :: line) :: lines

def ofText (text : String) : List String := (ofChars text.toList).map String.ofList

theorem ofChars_ne_nil {cs : List Char} (h : cs ≠ []) : ofChars cs ≠ [] := by
  fun_cases ofChars cs with
  | case1 => exact absurd rfl h
  | case2 | case3 | case4 | case5 => exact List.cons_ne_nil _ _

theorem ofChars_cons {c : Char} {cs line : List Char} {lines : List (List Char)}
    (hend : ∀ rest, c = '\r' → cs = '\n' :: rest → False) (hc : c ≠ '\n')
    (h : ofChars cs = line :: lines) : ofChars (c :: cs) = (c :: line) :: lines := by
  rw [ofChars.eq_4 c cs hend hc, h]

/-- What follows a line feed has no part in the lines before it. -/
theorem ofChars_append (cs rest : List Char) :
    ofChars (cs ++ '\n' :: rest) = ofChars (cs ++ ['\n']) ++ ofChars rest := by
  fun_induction ofChars cs with
  | case1 => rfl
  | case2 cs ih => exact congrArg ([] :: ·) ih
  | case3 cs ih => exact congrArg ([] :: ·) ih
  | case4 c cs _ hc hnone _ =>
    obtain rfl : cs = [] := Decidable.byContradiction fun hne => ofChars_ne_nil hne hnone
    by_cases hr : c = '\r'
    · subst hr
      rfl
    · rw [List.singleton_append, List.singleton_append,
        ofChars_cons (fun _ heq _ => hr heq) hc rfl, ofChars_cons (fun _ heq _ => hr heq) hc rfl]
      rfl
  | case5 c cs hend hc line lines hlines ih =>
    obtain ⟨first, others, hfirst⟩ : ∃ first others, ofChars (cs ++ ['\n']) = first :: others :=
      List.exists_cons_of_ne_nil (ofChars_ne_nil (by simp))
    have hend' : ∀ more rest, c = '\r' → cs ++ '\n' :: more = '\n' :: rest → False := by
      intro more rest hr heq
      cases cs with
      | nil => cases hlines
      | cons d ds =>
        obtain ⟨rfl, -⟩ := List.cons.inj heq
        exact hend ds hr rfl
    have hall : ofChars (cs ++ '\n' :: rest) = first :: (others ++ ofChars rest) := by
      rw [ih, hfirst]
      rfl
    rw [List.cons_append, List.cons_append, ofChars_cons (hend' rest) hc hall,
      ofChars_cons (hend' []) hc hfirst]
    rfl

/-- A text that holds neither end of a line is one line when it is ended. -/
theorem ofChars_append_lineFeed {cs : List Char} (rest : List Char)
    (h : ∀ c ∈ cs, c ≠ '\n' ∧ c ≠ '\r') : ofChars (cs ++ '\n' :: rest) = cs :: ofChars rest := by
  induction cs with
  | nil => simp [ofChars]
  | cons c cs ih =>
    have ⟨hn, hr⟩ := h c List.mem_cons_self
    rw [List.cons_append, ofChars, ih fun d hd => h d (List.mem_cons_of_mem c hd)]
    · intro ds he
      exact absurd he hr
    · exact hn

/-- Texts that end with line feeds are split one by one. -/
theorem ofText_join (texts : List String) : ofText (String.join (texts.map (· ++ "\n"))) =
    texts.flatMap fun text => ofText (text ++ "\n") := by
  induction texts with
  | nil => rfl
  | cons text texts ih =>
    have hchars : (text ++ "\n" ++ String.join (texts.map (· ++ "\n"))).toList =
        text.toList ++ '\n' :: (String.join (texts.map (· ++ "\n"))).toList := by
      simp
    rw [List.map_cons, String.join_cons, List.flatMap_cons, ← ih, ofText, hchars, ofChars_append,
      List.map_append, ofText, ofText, String.toList_append]
    rfl

theorem ofText_lineFeed {text : String} (h : text.toList.all fun c => c ≠ '\n' ∧ c ≠ '\r') :
    ofText (text ++ "\n") = [text] := by
  have hline : ofChars (text ++ "\n").toList = [text.toList] := by
    rw [String.toList_append]
    exact ofChars_append_lineFeed [] fun c hc => of_decide_eq_true (List.all_eq_true.1 h c hc)
  rw [ofText, hline, List.map_singleton, String.ofList_toList]

end KernelGraph.Lines
