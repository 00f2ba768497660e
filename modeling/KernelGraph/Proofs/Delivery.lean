import KernelGraph.Proofs.Files
import KernelGraph.Proofs.Reporting
import KernelGraph.Proofs.TextSize

/-!
The command delivers a whole result or none, on every machine that does what it is told. It writes
nothing before all texts are made, so that a run which fails until then leaves files and output as
they were, and reports the error last and as the only critical event. What it makes of a text is the
graph that the text is compiled to (`Invocation.compileText_eq`); that it can read the graph's text
again, so as to indent it, follows from the size of the document's text
(`Expr.Yields.sum_outputs_lt`).
-/

namespace KernelGraph

/-! ### What is reported -/

/-- Nothing critical was reported. -/
def Uncritical (log : List Event) : Prop := ∀ event ∈ log, event.severity ≠ .critical

theorem Uncritical.append {log later : List Event} (h : Uncritical log) (h' : Uncritical later) :
    Uncritical (log ++ later) := List.forall_mem_append.2 ⟨h, h'⟩

/-- A critical event is shown at every level. -/
theorem TraceLevel.lines_critical (level : TraceLevel) (log : List Event) (text : String) :
    level.lines (log ++ [.critical text]) = level.lines log ++ ["[CRITICAL] -- " ++ text] := by
  have hshown : level.shows .critical = true := by cases level <;> rfl
  rw [lines_append]
  exact congrArg (level.lines log ++ ·) (by simp [lines, Event.severity, hshown]; rfl)

/-- Only critical events are shown at the level that is off. -/
theorem TraceLevel.lines_off {log : List Event} (h : Uncritical log) :
    TraceLevel.off.lines log = [] := by
  have hnone : log.filter (fun event => TraceLevel.off.shows event.severity) = [] :=
    List.filter_eq_nil_iff.2 fun event hevent hshown => by
      have hcritical := h event hevent
      cases hseverity : event.severity with
      | critical => exact hcritical hseverity
      | trace | warning | error =>
          rw [hseverity] at hshown
          cases hshown
  rw [lines, hnone]
  rfl

/-- How a log ends that ends with an error, after what was reported earlier. The last line tells the
error at every level, and it is the only line of a critical event. In the text of the log an error may
break its line, but no other. -/
structure EndsCritical (earlier : List Event) (message : String) : Prop where
  uncritical : Uncritical earlier
  last : ∀ level : TraceLevel, level.lines (earlier ++ [.critical message]) =
    level.lines earlier ++ ["[CRITICAL] -- " ++ message]
  split : ∀ level : TraceLevel, Lines.ofText (level.text (earlier ++ [.critical message])) =
    Lines.ofText (level.text earlier) ++ Lines.ofText ("[CRITICAL] -- " ++ message ++ "\n")

theorem Uncritical.endsCritical {earlier : List Event} (h : Uncritical earlier) (message : String) :
    EndsCritical earlier message := by
  refine ⟨h, fun level => level.lines_critical earlier message, fun level => ?_⟩
  rw [level.ofText_text, level.lines_critical, List.flatMap_append, level.ofText_text,
    List.flatMap_singleton]

namespace Lowering

/-- From one state to another nothing critical was reported. -/
def GoesOn (s t : Lowering) : Prop := ∃ later, t.log = s.log ++ later ∧ Uncritical later

theorem GoesOn.refl (s : Lowering) : GoesOn s s :=
  ⟨[], (List.append_nil _).symm, List.forall_mem_nil _⟩

theorem GoesOn.trans {s t u : Lowering} (h : GoesOn s t) (h' : GoesOn t u) : GoesOn s u := by
  obtain ⟨later, hlog, hlater⟩ := h
  obtain ⟨later', hlog', hlater'⟩ := h'
  exact ⟨later ++ later', by rw [hlog', hlog, List.append_assoc], hlater.append hlater'⟩

theorem goesOn_note (s : Lowering) (event : Event) (h : event.severity ≠ .critical) :
    GoesOn s (s.note event) := ⟨[event], rfl, List.forall_mem_singleton.2 h⟩

theorem goesOn_visit (e : Expr) (s : Lowering) : GoesOn s (visit e s).2 :=
  rel_visit GoesOn.refl (fun _ _ _ => GoesOn.trans) goesOn_note
    (fun s _ => GoesOn.refl s) (fun _ _ _ _ h _ _ => h) e s

theorem goesOn_serialize (f : Function) (s : Lowering) : GoesOn s (serialize f s).2 :=
  rel_serialize GoesOn.refl (fun _ _ _ => GoesOn.trans) goesOn_visit f s

end Lowering

theorem uncritical_compile (root : Expr) (fallback : Option String) :
    Uncritical (compile root fallback).2 := by
  unfold compile
  cases root.function? with
  | none => exact List.forall_mem_nil _
  | some f =>
      dsimp only
      cases f.symbol? fallback with
      | none => exact List.forall_mem_nil _
      | some symbol =>
          dsimp only
          have hstart := Lowering.goesOn_note (.start symbol)
            (.compiling symbol f.params.length) nofun
          obtain ⟨later, hlog, hlater⟩ := hstart.trans (Lowering.goesOn_serialize f _)
          generalize Lowering.serialize f _ = out at hlog ⊢
          obtain rfl : out.2.log = later := hlog
          obtain ⟨err | g, t⟩ := out
          · exact hlater
          · exact hlater.append (List.forall_mem_singleton.2 nofun)

/-! ### What a text is compiled to -/

theorem eq_ok_of_mapError {ε ε' α : Type} {f : ε → ε'} {x : Except ε α} {a : α}
    (h : x.mapError f = .ok a) : x = .ok a := by
  cases x with
  | error e => cases h
  | ok a' => exact congrArg Except.ok (Except.ok.inj h)

namespace Invocation

/-- What a text is compiled to, or what goes wrong first. -/
def compiledText (inv : Invocation) (text : String) : Except CommandError Compiled := do
  let document ← (Document.parse text).mapError (.parse inv.input text)
  let root ← document.build.mapError .document
  (compile root inv.symbol).1.mapError .lowering

/-- The texts of what was compiled, in the layout that is asked for. -/
def layOut (inv : Invocation) (compiled : Compiled) : Except CommandError Output :=
  if inv.pretty then do
    let graph ← (Json.read compiled.graphText).mapError (.reread compiled.graphText)
    .ok ⟨graph.pretty, compiled.paramsJson.pretty⟩
  else .ok ⟨compiled.graphText, compiled.paramsJson.compact⟩

/-- The command lays out what the text is compiled to. -/
theorem compileText_eq (inv : Invocation) (text : String) : ∃ log, Uncritical log ∧
    inv.compileText text = (inv.compiledText text >>= inv.layOut, log) := by
  unfold compileText compiledText
  cases Document.parse text with
  | error err => exact ⟨[], List.forall_mem_nil _, rfl⟩
  | ok document =>
      dsimp only [bind, Except.bind, Except.mapError]
      cases document.build with
      | error err => exact ⟨[], List.forall_mem_nil _, rfl⟩
      | ok root =>
          have hlog := uncritical_compile root inv.symbol
          dsimp only
          generalize compile root inv.symbol = out at hlog ⊢
          obtain ⟨err | compiled, log⟩ := out
          · exact ⟨log, hlog, rfl⟩
          · refine ⟨log ++ [.compiled compiled.symbol],
              hlog.append (List.forall_mem_singleton.2 nofun), ?_⟩
            dsimp only [layOut]
            cases inv.pretty with
            | false => rfl
            | true => cases Json.read compiled.graphText <;> rfl

variable {inv : Invocation} {g : Graph}

/-- A graph is laid out as it is asked for; to be indented, its text must be read again. -/
theorem layOut_ofGraph (h : inv.pretty = true → g.Fits) : inv.layOut (.ofGraph g) =
    .ok ⟨g.toJson.toText inv.pretty, (Compiled.ofGraph g).paramsJson.toText inv.pretty⟩ := by
  rw [layOut]
  cases hpretty : inv.pretty with
  | false => rfl
  | true =>
      have hread : Json.read (Compiled.ofGraph g).graphText = .ok g.toJson :=
        Graph.read_toText (h hpretty) false
      rw [hread]
      rfl

/-- What a text is compiled to is a graph, which fits if the text does. -/
theorem exists_graph_of_compiledText {text : String} {c : Compiled}
    (h : inv.compiledText text = .ok c) :
    ∃ g, c = .ofGraph g ∧ (text.utf8ByteSize < UInt64.size → g.Fits) := by
  obtain ⟨document, hparse, h⟩ := exists_of_bind_eq_ok h
  obtain ⟨root, hbuild, h⟩ := exists_of_bind_eq_ok h
  obtain ⟨g, hg, rfl⟩ := exists_yields_of_compile (Prod.ext (eq_ok_of_mapError h) rfl)
  have houtputs := hg.sum_outputs_lt (eq_ok_of_mapError hparse) (eq_ok_of_mapError hbuild)
  exact ⟨g, rfl, fun htext => hg.fits (houtputs.trans htext)⟩

/-! ### What is delivered -/

/-- The files that are asked for. -/
def paths (inv : Invocation) : List String := inv.output.toList ++ inv.params.toList

/-- The texts that are to be written, each with its path. -/
def writes (inv : Invocation) (out : Output) : List (String × String) :=
  inv.output.toList.map (·, out.graph) ++ inv.params.toList.map (·, out.params)

/-- The graph is printed on a line of its own if it has no file. -/
def printout (inv : Invocation) (out : Output) : String :=
  if inv.output.isNone then out.graph ++ "\n" else ""

theorem mem_paths (inv : Invocation) {out : Output} {write : String × String}
    (h : write ∈ inv.writes out) : write.1 ∈ inv.paths := by
  rw [paths, List.mem_append]
  obtain h | h := List.mem_append.1 h
  · obtain ⟨path, hpath, rfl⟩ := List.mem_map.1 h
    exact .inl hpath
  · obtain ⟨path, hpath, rfl⟩ := List.mem_map.1 h
    exact .inr hpath

end Invocation

namespace Machine

variable {σ File : Type} [DecidableEq File] {M : Machine σ File}

/-! ### What is delivered -/

/-- What the document is compiled to if it can be read. -/
def compiled (M : Machine σ File) (inv : Invocation) (s : σ) : Except CommandError Compiled := do
  let text ← (M.read inv.input s).1.mapError (.read inv.input)
  inv.compiledText text

theorem compiled_of_read {inv : Invocation} {s : σ} {text : String}
    (h : (M.read inv.input s).1 = .ok text) : M.compiled inv s = inv.compiledText text := by
  rw [compiled, h]
  rfl

/-- The machine when the document was read and a log reported. -/
def prepared (M : Machine σ File) (inv : Invocation) (log : List Event) (s : σ) : σ :=
  (log.forM M.report (M.read inv.input s).2).2

theorem look_prepared (inv : Invocation) (log : List Event) (s : σ) :
    M.look (M.prepared inv log s) = (M.look s).report log := by
  rw [prepared, look_forM_report, M.look_read]

/-- The machine after a result was delivered, or the path that could not be written, and why. -/
def deliver (M : Machine σ File) (inv : Invocation) (out : Output) (s : σ) :
    Except (String × String) σ :=
  M.writeAll (inv.writes out) (if inv.output.isNone then (M.print (out.graph ++ "\n") s).2 else s)

/-- A file has a text, and nothing else is read where a path leads to it. -/
structure Holds (M : Machine σ File) (s : σ) (path : String) (f : File) (text : String) : Prop where
  bytes : (M.look s).bytes f = some text.toUTF8
  read : ∀ found, (M.read path s).1 = .ok found → found = text

theorem holds_of_bytes {s : σ} {path : String} {f : File} {text : String}
    (hsink : (M.look s).sink path = .file f) (h : (M.look s).bytes f = some text.toUTF8) :
    M.Holds s path f text := by
  refine ⟨h, fun found hfound => ?_⟩
  have hbytes := (M.bytes_of_read hsink hfound).symm.trans h
  exact String.toByteArray_inj.1 (Option.some.inj hbytes)

/-- What a machine holds when a result was delivered: each file that was asked for has its text, the
graph is printed on a line if it has no file, what was reported stands on the standard error, and
nothing else has changed. -/
structure Delivered (M : Machine σ File) (inv : Invocation) (out : Output) (log : List Event)
    (s s' : σ) : Prop where
  graph : ∀ path f, inv.output = some path → (M.look s).sink path = .file f →
    (∀ other, inv.params = some other → (M.look s).sink other ≠ .file f) →
    M.Holds s' path f out.graph
  params : ∀ path f, inv.params = some path → (M.look s).sink path = .file f →
    M.Holds s' path f out.params
  others : ∀ f, (∀ path ∈ inv.paths, (M.look s).sink path ≠ .file f) →
    (M.look s').bytes f = (M.look s).bytes f
  printed : (∀ path ∈ inv.paths, (M.look s).sink path ≠ .output) →
    (M.look s').printed = (M.look s).printed ++ inv.printout out
  errors : (∀ path ∈ inv.paths, (M.look s).sink path ≠ .errors) →
    (M.look s').errors = (M.look s).errors ++ log.map .event
  sink : (M.look s').sink = (M.look s).sink

/-- What is seen when a result was delivered. -/
theorem look_deliver {inv : Invocation} {out : Output} {s s' : σ}
    (h : M.deliver inv out s = .ok s') :
    M.look s' = ((M.look s).print (inv.printout out)).writeAll (inv.writes out) := by
  rw [look_writeAll h, Invocation.printout]
  cases inv.output with
  | none => exact congrArg (Sight.writeAll · _) (M.look_print _ s)
  | some path =>
      have hprint : (M.look s).print "" = M.look s :=
        congrArg (fun printed => { M.look s with printed }) (String.append_empty ..)
      exact congrArg (Sight.writeAll · _) hprint.symm

theorem delivered_of_deliver {inv : Invocation} {out : Output} {log : List Event} {s s' : σ}
    (h : M.deliver inv out (M.prepared inv log s) = .ok s') : M.Delivered inv out log s s' := by
  have hlook := look_deliver h
  rw [look_prepared] at hlook
  have hsink : (M.look s').sink = (M.look s).sink := by
    rw [hlook]
    exact Sight.sink_writeAll _ _
  have hpaths : ∀ sink, (∀ path ∈ inv.paths, (M.look s).sink path ≠ sink) →
      ∀ write ∈ inv.writes out, (M.look s).sink write.1 ≠ sink := fun _ hne write hwrite =>
    hne _ (inv.mem_paths hwrite)
  refine ⟨fun path f hpath hfile hother => ?_, fun path f hpath hfile => ?_, fun f hf => ?_,
    fun hall => ?_, fun hall => ?_, hsink⟩
  · have hwrites : inv.writes out = [] ++ (path, out.graph) ::
        inv.params.toList.map (·, out.params) := by
      rw [Invocation.writes, hpath]
      rfl
    refine holds_of_bytes (hsink ▸ hfile) ?_
    rw [hlook, hwrites]
    refine Sight.bytes_writeAll hfile fun write hwrite => ?_
    obtain ⟨other, hparams, rfl⟩ := List.mem_map.1 hwrite
    exact hother other (Option.mem_toList.1 hparams)
  · have hwrites : inv.writes out = inv.output.toList.map (·, out.graph) ++
        (path, out.params) :: [] := by
      rw [Invocation.writes, hpath]
      rfl
    refine holds_of_bytes (hsink ▸ hfile) ?_
    rw [hlook, hwrites]
    exact Sight.bytes_writeAll hfile (List.forall_mem_nil _)
  · rw [hlook]
    exact Sight.bytes_writeAll_of_ne (hpaths _ hf)
  · rw [hlook]
    exact Sight.printed_writeAll (hpaths _ hall)
  · rw [hlook]
    exact Sight.errors_writeAll (hpaths _ hall)

/-! ### Runs -/

/-- A run that has only texts to write succeeds if all of them can be written, and otherwise fails
for the first one that cannot. -/
def Ends (M : Machine σ File) (run : Bool × σ) : Except (String × String) σ → Prop
  | .ok s => run = (true, s)
  | .error (path, reason) => ∃ s, run = M.fail (.write path reason) s

theorem ends_writeThen {next : StateM σ Bool} {writes : List (String × String)}
    (hnext : ∀ s, M.Ends (next s) (M.writeAll writes s)) (path text : String) (s : σ) :
    M.Ends (M.writeThen path text next s) (M.writeAll ((path, text) :: writes) s) := by
  rw [Platform.writeThen, writeAll]
  show M.Ends (StateT.bind (M.write path text) _ s) _
  rw [StateT.bind]
  obtain ⟨none | reason, t⟩ := M.write path text s
  · exact hnext t
  · exact ⟨t, rfl⟩

theorem ends_writeParams (inv : Invocation) (out : Output) (s : σ) :
    M.Ends (M.writeParams inv out s) (M.writeAll (inv.params.toList.map (·, out.params)) s) := by
  rw [Platform.writeParams]
  cases inv.params with
  | none => rfl
  | some path =>
      have hnext : ∀ t, M.Ends ((pure true : StateM σ Bool) t) (M.writeAll [] t) := fun _ => rfl
      exact ends_writeThen hnext path out.params s

theorem ends_writeGraph (inv : Invocation) (out : Output) (s : σ) :
    M.Ends (M.writeGraph inv out s) (M.deliver inv out s) := by
  rw [Platform.writeGraph, deliver, Invocation.writes]
  cases inv.output with
  | none => exact ends_writeParams inv out _
  | some path => exact ends_writeThen (ends_writeParams inv out) path out.graph s

/-- What a run comes to if its document cannot be read, and otherwise. -/
theorem run_eq (inv : Invocation) (s : σ) : M.run inv s =
    match (M.read inv.input s).1 with
    | .error reason => M.fail (.read inv.input reason) (M.prepared inv [] s)
    | .ok text =>
      match (inv.compileText text).1 with
      | .error e => M.fail e (M.prepared inv (inv.compileText text).2 s)
      | .ok out => M.writeGraph inv out (M.prepared inv (inv.compileText text).2 s) := by
  rw [Platform.run]
  show StateT.bind (M.read inv.input) _ s = _
  rw [StateT.bind]
  unfold prepared
  obtain ⟨reason | text, t⟩ := M.read inv.input s
  · rfl
  · dsimp only [bind]
    generalize inv.compileText text = out
    obtain ⟨e | out, log⟩ := out
    · rfl
    · rfl

/-- A run that fails tells why. -/
theorem look_fail (e : CommandError) (s : σ) : M.look (M.fail e s).2 =
    (M.look s).report [.critical (e.message M.wording)] := M.look_report _ s

/-- A run that makes nothing tells why, and does nothing else. -/
theorem run_of_error {inv : Invocation} {s : σ} {e : CommandError}
    (h : M.compiled inv s = .error e) : ∃ earlier, Uncritical earlier ∧
      M.run inv s = M.fail e (M.prepared inv earlier s) := by
  rw [run_eq]
  cases hread : (M.read inv.input s).1 with
  | error reason =>
      rw [compiled, hread] at h
      cases h
      exact ⟨[], List.forall_mem_nil _, rfl⟩
  | ok text =>
      rw [compiled_of_read hread] at h
      obtain ⟨earlier, hearlier, hcompile⟩ := inv.compileText_eq text
      refine ⟨earlier, hearlier, ?_⟩
      dsimp only
      rw [hcompile, h]
      rfl

/-- A run that makes all texts has only to write them. -/
theorem run_of_ok {inv : Invocation} {s : σ} {text : String} {c : Compiled} {out : Output}
    (hread : (M.read inv.input s).1 = .ok text) (hc : inv.compiledText text = .ok c)
    (hout : inv.layOut c = .ok out) : ∃ log, Uncritical log ∧
      M.run inv s = M.writeGraph inv out (M.prepared inv log s) := by
  obtain ⟨log, hlog, hcompile⟩ := inv.compileText_eq text
  refine ⟨log, hlog, ?_⟩
  rw [run_eq, hread]
  dsimp only
  rw [hcompile, hc]
  have hsame : (Except.ok c >>= inv.layOut) = .ok out := hout
  rw [hsame]

/-- The command delivers a whole result or none, whatever the machine. If the document cannot be read
or is no expression that can be compiled, the run fails; it prints and writes nothing, and what it
reports ends with the line of the error, the only critical event there is. Otherwise the graph and
the constants of what the document is compiled to are laid out as it was asked for, and if they can
be written, the run succeeds and leaves them where they were asked for and nothing else; if one of
them cannot, the run fails and tells so last. The graph's text is read again only to be indented, for
which the document's text must have a number of bytes that fits into a word. -/
theorem run_all_or_nothing (M : Machine σ File) (inv : Invocation) (s : σ)
    (hsize : inv.pretty = true → ∀ text, (M.read inv.input s).1 = .ok text →
      text.utf8ByteSize < UInt64.size) :
    (∀ e, M.compiled inv s = .error e → ∃ earlier,
      (M.run inv s).1 = false ∧ exitCode (M.run inv s).1 = 1 ∧
      M.look (M.run inv s).2 =
        (M.look s).report (earlier ++ [.critical (e.message M.wording)]) ∧
      (∀ level, Notice.textOf level (M.look (M.run inv s).2).errors =
        Notice.textOf level (M.look s).errors ++
          level.text (earlier ++ [.critical (e.message M.wording)])) ∧
      EndsCritical earlier (e.message M.wording)) ∧
    ∀ c, M.compiled inv s = .ok c → ∃ g out log, c = .ofGraph g ∧
      (inv.pretty = true → Json.read c.graphText = .ok g.toJson) ∧
      out = ⟨g.toJson.toText inv.pretty, c.paramsJson.toText inv.pretty⟩ ∧ Uncritical log ∧
      (∀ s', M.deliver inv out (M.prepared inv log s) = .ok s' →
        M.run inv s = (true, s') ∧ exitCode (M.run inv s).1 = 0 ∧ M.Delivered inv out log s s') ∧
      ∀ path reason, M.deliver inv out (M.prepared inv log s) = .error (path, reason) →
        (M.run inv s).1 = false ∧ exitCode (M.run inv s).1 = 1 ∧ ∃ notices,
          (M.look (M.run inv s).2).errors =
            notices ++ [.event (.critical s!"failed to write {path}: {reason}")] := by
  refine ⟨fun e he => ?_, fun c hc => ?_⟩
  · obtain ⟨earlier, hearlier, hrun⟩ := run_of_error he
    have hlook : M.look (M.run inv s).2 =
        (M.look s).report (earlier ++ [.critical (e.message M.wording)]) := by
      rw [hrun, look_fail, look_prepared, Sight.report_report]
    refine ⟨earlier, ?_, ?_, hlook, fun level => ?_, hearlier.endsCritical _⟩
    · rw [hrun]
      rfl
    · rw [hrun]
      rfl
    · rw [hlook, Sight.report, Notice.textOf_append, Notice.textOf_events]
  · obtain ⟨text, htext, hc⟩ := exists_of_bind_eq_ok hc
    have hread := eq_ok_of_mapError htext
    obtain ⟨g, rfl, hfits⟩ := Invocation.exists_graph_of_compiledText hc
    have hlegible : inv.pretty = true → g.Fits := fun hpretty => hfits (hsize hpretty text hread)
    obtain ⟨log, hlog, hrun⟩ := run_of_ok hread hc (Invocation.layOut_ofGraph hlegible)
    have hends := ends_writeGraph (M := M) inv
      ⟨g.toJson.toText inv.pretty, (Compiled.ofGraph g).paramsJson.toText inv.pretty⟩
      (M.prepared inv log s)
    rw [← hrun] at hends
    refine ⟨g, _, log, rfl, fun hpretty => Graph.read_toText (hlegible hpretty) false, rfl, hlog,
      fun s' hs' => ?_, fun path reason herror => ?_⟩
    · rw [hs'] at hends
      have hrun : M.run inv s = (true, s') := hends
      refine ⟨hrun, ?_, delivered_of_deliver hs'⟩
      rw [hrun]
      rfl
    · rw [herror] at hends
      obtain ⟨t, hrun⟩ : ∃ t, M.run inv s = M.fail (.write path reason) t := hends
      rw [hrun]
      refine ⟨rfl, rfl, (M.look t).errors, ?_⟩
      rw [look_fail]
      rfl

end Machine

/-! A document that is compiled into two files, none of them in the working directory, and one that
is no function. -/

namespace World

theorem forM_report (log : List Event) (w : World) :
    (log.forM machine.report w).2 = { w with errors := w.errors ++ log.map .event } := by
  induction log generalizing w with
  | nil => exact congrArg (fun errors => { w with errors }) (List.append_nil _).symm
  | cons event log ih =>
      calc ((event :: log).forM machine.report w).2
          = (log.forM machine.report { w with errors := w.errors ++ [.event event] }).2 := rfl
        _ = _ := by
          rw [ih, List.append_assoc]
          rfl

theorem prepared_eq (inv : Invocation) (log : List Event) (w : World) :
    machine.prepared inv log w = { w with errors := w.errors ++ log.map .event } := by
  have hread : (machine.read inv.input w).2 = w := congrArg Prod.snd (read_eq inv.input w)
  rw [Machine.prepared, hread, forM_report]

/-- Where there were no lines before, the text splits as that of the reports. -/
theorem lines_of_look {w : World} {log : List Event} (h : w.look.errors = log.map .event)
    (level : TraceLevel) : w.lines level = Lines.ofText (level.text log) := by
  have herrors : w.errors = log.map .event := h
  rw [lines, errorText, herrors, Notice.textOf_events]

end World

namespace Cast

def directory : World := .ofFile "cast.json" document.toJson.compact

def request : Invocation :=
  ⟨"cast.json", some "main", some "../graph.json", some "/tmp/params.json", true⟩

theorem compiled_request :
    World.machine.compiled request directory = .ok (.ofGraph (graph quoted "main")) := by
  have hread : (World.machine.read request.input directory).1 = .ok document.toJson.compact := rfl
  have hparse : Document.parse document.toJson.compact = .ok document :=
    Document.parse_eq_ok document_reproduced false
  have hcompile : (compile (main quoted .empty) (some "main")).1 =
      .ok (.ofGraph (graph quoted "main")) := compile_main rfl
  rw [Machine.compiled_of_read hread, Invocation.compiledText, hparse]
  exact congrArg (Except.mapError CommandError.lowering) hcompile

theorem fits_quoted : (graph quoted "main").Fits := by
  refine ⟨?_, by decide, ?_⟩
  · exact List.forall_mem_cons.2 ⟨List.forall_mem_nil _, List.forall_mem_singleton.2
      (List.forall_mem_singleton.2 ⟨by decide, by decide, by decide⟩)⟩
  · exact List.forall_mem_singleton.2 ⟨by decide, by decide, by decide⟩

/-- The document is a variable. -/
def lone : String := "[[[\"var\",\"x\"]],0]"

theorem compiled_lone : World.machine.compiled request (.ofFile "cast.json" lone) =
    .error (.lowering (.unsupportedTarget "Var")) := by
  have hread : (World.machine.read request.input (.ofFile "cast.json" lone)).1 = .ok lone := rfl
  have hparse : Document.parse lone = .ok ⟨[.var "x" none], 0⟩ := by decide +kernel
  rw [Machine.compiled_of_read hread, Invocation.compiledText, hparse]
  rfl

/-- Both files are made. A variable leaves no file behind, and one line. -/
theorem request_delivered :
    (∃ log, World.machine.run request directory = (true, { directory with
      texts := [((["tmp"], "params.json"), "\x7b\x7d"),
        ((["home"], "graph.json"), (graph quoted "main").toJson.pretty),
        ((["work", "home"], "cast.json"), document.toJson.compact)]
      errors := List.map Notice.event log })) ∧
    ∃ w, World.machine.run request (.ofFile "cast.json" lone) = (false, w) ∧
      w.look.bytes = (World.ofFile "cast.json" lone).look.bytes ∧ w.printed = "" ∧
      w.lines .off = ["[CRITICAL] -- unsupported call target: Var"] := by
  constructor
  · have hsize : document.toJson.compact.utf8ByteSize < UInt64.size := by decide +kernel
    obtain ⟨-, hok⟩ := Machine.run_all_or_nothing World.machine request directory
      fun _ text htext => Except.ok.inj htext ▸ hsize
    obtain ⟨g, _, log, hg, hread, rfl, -, hdelivered, -⟩ := hok _ compiled_request
    have hjson : (graph quoted "main").toJson = g.toJson :=
      Except.ok.inj ((Graph.read_toText fits_quoted false).symm.trans (hread rfl))
    rw [← hjson, World.prepared_eq] at hdelivered
    exact ⟨log, (hdelivered _ rfl).1⟩
  · have hsize : lone.utf8ByteSize < UInt64.size := by decide
    obtain ⟨herror, -⟩ := Machine.run_all_or_nothing World.machine request
      (.ofFile "cast.json" lone) fun _ text htext => Except.ok.inj htext ▸ hsize
    obtain ⟨earlier, hfalse, -, hlook, -, hends⟩ := herror _ compiled_lone
    have hbytes := congrArg Sight.bytes hlook
    have hprinted := congrArg Sight.printed hlook
    have herrors := congrArg Sight.errors hlook
    refine ⟨_, Prod.ext hfalse rfl, hbytes, hprinted, ?_⟩
    rw [World.lines_of_look herrors, hends.split, TraceLevel.text,
      TraceLevel.lines_off hends.uncritical]
    exact congrArg (_ ++ ·) (Lines.ofText_lineFeed (by decide))

end Cast

end KernelGraph
