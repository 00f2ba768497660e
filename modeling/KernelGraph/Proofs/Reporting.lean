import KernelGraph.Proofs.Blame
import KernelGraph.Text.Lines

/-!
What is reported where a fused call fails. A call whose function names what it fuses reports the
error before it gives it out, be it that nobody knows the name, that the body is not what the name
declares, or that an operand fails, so that the last line of the log tells the error
(`visit_fused_reported`). Only a function that names nothing is refused without a word.
-/

namespace KernelGraph

open Lowering

/-- The lines of a log that are shown at a level, one for each event. How the text of the log splits
at its line breaks follows from them (`TraceLevel.ofText_text`). -/
def TraceLevel.lines (level : TraceLevel) (log : List Event) : List String :=
  (log.filter fun event => level.shows event.severity).map Event.line

/-- The text of these lines, each with a line feed after it. -/
def TraceLevel.text (level : TraceLevel) (log : List Event) : String :=
  String.join ((level.lines log).map (· ++ "\n"))

namespace Event

/-- An event reports an error if its message ends in the text of the error. -/
structure Tells (event : Event) (err : LoweringError) : Prop where
  severity : event.severity = .error
  message : ∃ before, event.message = before ++ err.message

theorem unknownComposite_tells (err : LoweringError) : (unknownComposite err).Tells err :=
  ⟨rfl, "", (String.empty_append ..).symm⟩

theorem failed_tells (kind : FusedKind) (err : LoweringError) : (failed kind err).Tells err :=
  ⟨rfl, s!"failed to lower {kind.name}: ", rfl⟩

end Event

namespace TraceLevel

variable {level : TraceLevel}

theorem shows_error (h : level ≠ .off) : level.shows .error = true := by
  cases level with
  | off => exact absurd rfl h
  | basic => rfl
  | full => rfl

theorem lines_append (log later : List Event) :
    level.lines (log ++ later) = level.lines log ++ level.lines later := by
  rw [lines, List.filter_append, List.map_append]
  rfl

theorem text_append (log later : List Event) :
    level.text (log ++ later) = level.text log ++ level.text later := by
  rw [text, lines_append, List.map_append, String.join_append]
  rfl

/-- The text is split line by line, and at the line breaks that a message has. -/
theorem ofText_text (level : TraceLevel) (log : List Event) : Lines.ofText (level.text log) =
    (level.lines log).flatMap fun line => Lines.ofText (line ++ "\n") :=
  Lines.ofText_join _

/-- An error that is reported last is told by the last line. -/
theorem lines_concat (h : level ≠ .off) {event : Event} {err : LoweringError}
    (hevent : event.Tells err) (log : List Event) : ∃ before,
      level.lines (log ++ [event]) = level.lines log ++ ["[ERROR] -- " ++ before ++ err.message] := by
  obtain ⟨before, hmessage⟩ := hevent.message
  have hshown : level.shows event.severity = true := by
    rw [hevent.severity]
    exact shows_error h
  have hline : event.line = "[ERROR] -- " ++ before ++ err.message := by
    rw [Event.line, hevent.severity, hmessage, String.append_assoc]
    rfl
  have hlast : level.lines [event] = [event.line] := by
    rw [lines, List.filter_singleton, hshown]
    rfl
  exact ⟨before, by rw [lines_append, hlast, hline]⟩

end TraceLevel

namespace Notice

theorem textOf_append (level : TraceLevel) (notices later : List Notice) :
    textOf level (notices ++ later) = textOf level notices ++ textOf level later := by
  rw [textOf, List.map_append, String.join_append]
  rfl

/-- Where there are only reports, their lines are the text. -/
theorem textOf_events (level : TraceLevel) (log : List Event) :
    textOf level (log.map .event) = level.text log := by
  induction log with
  | nil => rfl
  | cons event log ih =>
      have hevent : shown level (.event event) = level.text [event] := by
        rw [shown, TraceLevel.text, TraceLevel.lines, List.filter_singleton]
        cases level.shows event.severity with
        | false => rfl
        | true => exact (String.empty_append ..).symm
      calc textOf level ((event :: log).map .event)
          = shown level (.event event) ++ textOf level (log.map .event) := String.join_cons
        _ = level.text [event] ++ level.text log := by rw [ih, hevent]
        _ = level.text (event :: log) := (TraceLevel.text_append [event] log).symm

end Notice

namespace Lowering

/-- The last event of a log reports the error, after what was reported before. -/
def ReportedLast (s t : Lowering) (err : LoweringError) : Prop :=
  ∃ earlier event, t.log = s.log ++ earlier ++ [event] ∧ event.Tells err

/-- What goes on from a state and then reports an error has reported it last. -/
theorem Extends.reportedLast {s t : Lowering} (h : s.Extends t) {event : Event}
    {err : LoweringError} (hevent : event.Tells err) : ReportedLast s (t.note event) err := by
  obtain ⟨earlier, hlog⟩ := h.log
  exact ⟨earlier, event, congrArg (· ++ [event]) hlog.symm, hevent⟩

/-- Building a kernel goes on from where it began, also if it fails. -/
theorem extends_ofPattern (p : Pattern) (root : Call) (s : Lowering) :
    s.Extends (ofPattern p root s).2 :=
  rel_ofPattern Extends.refl (fun _ _ _ => Extends.trans) (fun _ _ x _ => extends_visit x) s

/-- What has a node does not fail. -/
theorem lookup_of_visit_error {e : Expr} {s t : Lowering} {err : LoweringError}
    (h : visit e s = (.error err, t)) : s.registry.lookup e.id = none := by
  rw [Option.eq_none_iff_forall_ne_some]
  intro entries hentries
  rw [visit_of_lookup hentries] at h
  cases h

/-- A call of a function that names what it fuses reports why it fails. -/
theorem reportedLast_of_named {id : Nat} {callee : Expr} {args : List Expr} {attrs : Attributes}
    {f : Function} {name : String} (hf : callee.function? = some f)
    (hname : f.attrs.getText? compositeName = some name) {s t : Lowering} {err : LoweringError}
    (h : visit (.exprCall id callee args attrs) s = (.error err, t)) : ReportedLast s t err := by
  have hnew : s.registry.lookup id = none := lookup_of_visit_error h
  cases hkind : FusedKind.ofName? name with
  | none =>
      have hundeclared : callee.fusedKind = .error (.unknownComposite name) := by
        simp only [Expr.fusedKind, hf, hname, hkind]
      have hnote : (declaredKind callee s).2 =
          s.note (.unknownComposite (.unknownComposite name)) := by
        simp only [declaredKind, hf, hname, hkind]
        rfl
      rw [visit_undeclared hnew hundeclared, hnote] at h
      cases h
      exact (Extends.refl s).reportedLast (Event.unknownComposite_tells _)
  | some kind =>
      have hdeclared : callee.fusedKind = .ok kind := by
        simp only [Expr.fusedKind, hf, hname, hkind]
      cases hp : Pattern.ofKind kind ⟨.expr callee, args, attrs⟩ with
      | error err' =>
          rw [visit_unmatched hnew hdeclared hp] at h
          cases h
          exact (Extends.refl s).reportedLast (Event.failed_tells kind _)
      | ok p =>
          have hgrows := extends_ofPattern p ⟨.expr callee, args, attrs⟩ s
          rw [visit_fused hnew hdeclared hp] at h
          rcases hnode : ofPattern p ⟨.expr callee, args, attrs⟩ s with ⟨err' | node, u⟩
          · rw [hnode] at h hgrows
            cases h
            exact hgrows.reportedLast (Event.failed_tells kind _)
          · rw [hnode] at h
            cases h

/-- A call of a function that names nothing fails without a report. -/
theorem visit_unnamed {id : Nat} {callee : Expr} {args : List Expr} {attrs : Attributes}
    {f : Function} (hf : callee.function? = some f)
    (hname : f.attrs.getText? compositeName = none) {s : Lowering}
    (hnew : s.registry.lookup id = none) :
    visit (.exprCall id callee args attrs) s = (.error .notComposite, s) := by
  have hundeclared : callee.fusedKind = .error .notComposite := by
    simp only [Expr.fusedKind, hf, hname]
  have hsilent : (declaredKind callee s).2 = s := by
    simp only [declaredKind, hf, hname]
    rfl
  rw [visit_undeclared hnew hundeclared, hsilent]

end Lowering

/-- A call of a function that fails, after whatever was lowered before, is reported if the function
names what it fuses: at every level but `off` the lines shown gain an error line that ends in the
text of the error, and no line comes after it. If the function has no such name, the call fails
for that reason alone, and no line is shown. -/
theorem visit_fused_reported {id : Nat} {callee : Expr} {args : List Expr} {attrs : Attributes}
    {f : Function} (hf : callee.function? = some f) {s t : Lowering} {err : LoweringError}
    (h : visit (.exprCall id callee args attrs) s = (.error err, t)) :
    (∀ name, f.attrs.get? "Composite" = some (.text name) → ∀ level, level ≠ TraceLevel.off →
      ∃ earlier before, level.lines t.log =
        level.lines s.log ++ earlier ++ ["[ERROR] -- " ++ before ++ err.message]) ∧
    ((∀ name, f.attrs.get? "Composite" ≠ some (.text name)) → err = .notComposite ∧ t = s) := by
  constructor
  · intro name hname level hlevel
    have hnamed : f.attrs.getText? compositeName = some name :=
      Attributes.getText?_eq_some_iff.2 hname
    obtain ⟨earlier, event, hlog, hevent⟩ := reportedLast_of_named hf hnamed h
    obtain ⟨before, hline⟩ := TraceLevel.lines_concat hlevel hevent (s.log ++ earlier)
    refine ⟨level.lines earlier, before, ?_⟩
    rw [hlog, hline, TraceLevel.lines_append]
  · intro hname
    have hunnamed : f.attrs.getText? compositeName = none :=
      Attributes.getText?_eq_none_iff.2 hname
    have hsilent : visit (.exprCall id callee args attrs) s = (.error .notComposite, s) :=
      visit_unnamed hf hunnamed (lookup_of_visit_error h)
    cases hsilent.symm.trans h
    exact ⟨rfl, rfl⟩

namespace WrongLayout

/-- The fused dense layer fails for the convolution that it is applied to, and says so last. -/
theorem outer_reported : ∃ t, visit outer (start "main") =
      (.error (.violation .convolution (.kernelLayout "HWIO")), t) ∧
    ∃ earlier before, TraceLevel.basic.lines t.log = TraceLevel.basic.lines [] ++ earlier ++
      ["[ERROR] -- " ++ before ++
        (LoweringError.violation .convolution (.kernelLayout "HWIO")).message] := by
  have herror : (visit outer (start "main")).1 =
      .error (.violation .convolution (.kernelLayout "HWIO")) := by
    have hids : Expr.Unambiguous (Expr.Among [outer]) := unambiguous (by simp [nodes])
    have hsum : sum.blames = outer.blames := by
      have hweight : weight.blames = [] := Expr.blames_constant 1 _
      have hargs : sum.blames = weight.blames ++ (outer.blames ++ []) :=
        Expr.blames_opCall 9 "add" _ _
      rw [hargs, hweight, List.nil_append, List.append_nil]
    have hreaches : ∀ x, outer.Reaches x → Expr.Among [outer] x := fun x hx =>
      ⟨outer, List.mem_cons_self, hx⟩
    refine (explains_visit hids (.start "main") hreaches _).2 ?_
    rw [← hsum, head?_blames_sum]
    rfl
  have hvisit : visit outer (start "main") =
      (.error (.violation .convolution (.kernelLayout "HWIO")), (visit outer (start "main")).2) :=
    Prod.ext herror rfl
  have hfunction : densed.function? =
      some ⟨[param], dense, ⟨[("Composite", .text "vsi_npu.dense")]⟩⟩ := rfl
  obtain ⟨hreported, -⟩ := visit_fused_reported hfunction hvisit
  exact ⟨_, hvisit, hreported "vsi_npu.dense" rfl .basic (by decide)⟩

end WrongLayout

namespace Unnamed

def input : Expr := .var 0 "x" none

def call : Expr := .exprCall 3 (.function 2 [input] (.opCall 1 "sigmoid" [input] .empty) .empty)
  [input] .empty

/-- A call of a function that names nothing fails, and not a line is shown at any level. -/
theorem call_not_reported : visit call (start "main") = (.error .notComposite, start "main") ∧
    ∀ level : TraceLevel, level.lines (start "main").log = [] :=
  ⟨visit_unnamed rfl rfl rfl, fun _ => rfl⟩

end Unnamed

end KernelGraph
