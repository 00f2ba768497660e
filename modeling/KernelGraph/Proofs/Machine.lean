import KernelGraph.Command.Run
import Mathlib.Logic.Function.Basic

/-!
What the command relies on in a machine. A machine is seen by what is in its files, by where the
text for a path goes, by what was printed and by what stands on the standard error (`Sight`). Reading
leaves all of that as it is, and a text that can be written goes where it should and changes nothing
else (`Machine`). What texts leave that are written one after the other follows from what one of them
leaves.
-/

namespace KernelGraph

/-- Where a text goes that is written to a path: to a file, to the standard output, to the standard
error, or where nobody sees it. -/
inductive Sink (File : Type) where
  | file (f : File)
  | output
  | errors
  | elsewhere

/-- What is seen of a machine. A path that leads to no file yet has the file that would be made. -/
structure Sight (File : Type) where
  bytes : File → Option ByteArray
  sink : String → Sink File
  printed : String
  errors : List Notice

namespace Sight

variable {File : Type}

def print (v : Sight File) (text : String) : Sight File := { v with printed := v.printed ++ text }

def report (v : Sight File) (events : List Event) : Sight File :=
  { v with errors := v.errors ++ events.map .event }

theorem report_report (v : Sight File) (log later : List Event) :
    (v.report log).report later = v.report (log ++ later) := by
  rw [report, report, report, List.map_append, List.append_assoc]

variable [DecidableEq File]

def write (v : Sight File) (path text : String) : Sight File :=
  match v.sink path with
  | .file f => { v with bytes := Function.update v.bytes f (some text.toUTF8) }
  | .output => v.print text
  | .errors => { v with errors := v.errors ++ [.text text] }
  | .elsewhere => v

/-- Texts are written to their paths, one after the other. -/
def writeAll (v : Sight File) (writes : List (String × String)) : Sight File :=
  writes.foldl (fun v (path, text) => v.write path text) v

variable {v : Sight File} {path text : String} {f : File}

@[simp] theorem sink_write (v : Sight File) (path text : String) :
    (v.write path text).sink = v.sink := by
  unfold write
  split <;> rfl

theorem bytes_write (h : v.sink path = .file f) :
    (v.write path text).bytes f = some text.toUTF8 := by
  rw [write, h]
  exact Function.update_self ..

theorem bytes_write_of_ne (h : v.sink path ≠ .file f) :
    (v.write path text).bytes f = v.bytes f := by
  unfold write
  split
  · rename_i other hother
    have hne : f ≠ other := fun heq => h (heq ▸ hother)
    exact Function.update_of_ne hne ..
  · rfl
  · rfl
  · rfl

theorem printed_write (h : v.sink path ≠ .output) : (v.write path text).printed = v.printed := by
  unfold write
  split
  · rfl
  · rename_i houtput
    exact absurd houtput h
  · rfl
  · rfl

theorem errors_write (h : v.sink path ≠ .errors) : (v.write path text).errors = v.errors := by
  unfold write
  split
  · rfl
  · rfl
  · rename_i herrors
    exact absurd herrors h
  · rfl

/-! ### Texts one after the other -/

variable {writes : List (String × String)}

theorem writeAll_cons (v : Sight File) (path text : String) (writes : List (String × String)) :
    v.writeAll ((path, text) :: writes) = (v.write path text).writeAll writes := rfl

/-- What no text has to do with is as it was. -/
theorem writeAll_eq {α : Type} (part : Sight File → α) (sinks : Sink File → Prop)
    (hpart : ∀ (v : Sight File) path text, ¬ sinks (v.sink path) →
      part (v.write path text) = part v)
    (h : ∀ write ∈ writes, ¬ sinks (v.sink write.1)) : part (v.writeAll writes) = part v := by
  induction writes generalizing v with
  | nil => rfl
  | cons write writes ih =>
      obtain ⟨hwrite, hwrites⟩ := List.forall_mem_cons.1 h
      rw [writeAll_cons, ih ((v.sink_write _ _).symm ▸ hwrites)]
      exact hpart v _ _ hwrite

theorem sink_writeAll (v : Sight File) (writes : List (String × String)) :
    (v.writeAll writes).sink = v.sink :=
  writeAll_eq sink (fun _ => False) (fun v path text _ => v.sink_write path text)
    fun _ _ => not_false

theorem printed_writeAll (h : ∀ write ∈ writes, v.sink write.1 ≠ .output) :
    (v.writeAll writes).printed = v.printed :=
  writeAll_eq printed (· = .output) (fun _ _ _ => printed_write) h

theorem errors_writeAll (h : ∀ write ∈ writes, v.sink write.1 ≠ .errors) :
    (v.writeAll writes).errors = v.errors :=
  writeAll_eq errors (· = .errors) (fun _ _ _ => errors_write) h

theorem bytes_writeAll_of_ne (h : ∀ write ∈ writes, v.sink write.1 ≠ .file f) :
    (v.writeAll writes).bytes f = v.bytes f :=
  writeAll_eq (fun v => v.bytes f) (· = .file f) (fun _ _ _ => bytes_write_of_ne) h

/-- A file holds the last text that is written to it. -/
theorem bytes_writeAll {before after : List (String × String)} (h : v.sink path = .file f)
    (hafter : ∀ write ∈ after, v.sink write.1 ≠ .file f) :
    (v.writeAll (before ++ (path, text) :: after)).bytes f = some text.toUTF8 := by
  have hlast : (v.writeAll (before ++ (path, text) :: after)) =
      ((v.writeAll before).write path text).writeAll after := List.foldl_append
  rw [hlast, bytes_writeAll_of_ne, bytes_write]
  · rw [sink_writeAll, h]
  · rwa [sink_write, sink_writeAll]

end Sight

/-- A machine that does what it is told. What is read of a file is what is in it. The standard output
and the standard error take every text; a text that cannot be written to a path may leave anything
behind. -/
structure Machine (σ File : Type) [DecidableEq File] extends Platform (StateM σ) where
  look : σ → Sight File
  look_read : ∀ path s, look (read path s).2 = look s
  bytes_of_read : ∀ {path s f text}, (look s).sink path = .file f → (read path s).1 = .ok text →
    (look s).bytes f = some text.toUTF8
  look_write : ∀ path text s, (write path text s).1 = none →
    look (write path text s).2 = (look s).write path text
  look_print : ∀ text s, look (print text s).2 = (look s).print text
  look_report : ∀ event s, look (report event s).2 = (look s).report [event]

namespace Machine

variable {σ File : Type} [DecidableEq File] (M : Machine σ File)

/-- Texts are written to their paths, one after the other, until there is one that cannot be written;
its path is told, and the reason. -/
def writeAll : List (String × String) → σ → Except (String × String) σ
  | [], s => .ok s
  | (path, text) :: writes, s =>
    match M.write path text s with
    | (none, s) => writeAll writes s
    | (some reason, _) => .error (path, reason)

variable {M}

theorem look_writeAll {writes : List (String × String)} {s s' : σ}
    (h : M.writeAll writes s = .ok s') : M.look s' = (M.look s).writeAll writes := by
  induction writes generalizing s with
  | nil =>
      cases h
      rfl
  | cons write writes ih =>
      obtain ⟨path, text⟩ := write
      have hlook := M.look_write path text s
      rw [writeAll] at h
      generalize M.write path text s = out at h hlook
      obtain ⟨none | reason, t⟩ := out
      · rw [ih h, hlook rfl, Sight.writeAll_cons]
      · cases h

theorem look_forM_report (log : List Event) (s : σ) :
    M.look (log.forM M.report s).2 = (M.look s).report log := by
  induction log generalizing s with
  | nil => exact congrArg (fun errors => { M.look s with errors }) (List.append_nil _).symm
  | cons event log ih =>
      calc M.look ((event :: log).forM M.report s).2
          = M.look (log.forM M.report (M.report event s).2).2 := rfl
        _ = ((M.look s).report [event]).report log := by rw [ih, M.look_report]
        _ = (M.look s).report (event :: log) := Sight.report_report _ _ _

end Machine

end KernelGraph
