import KernelGraph.Command.World
import KernelGraph.Fusion.Pattern
import KernelGraph.Proofs.Machine
import Mathlib.Tactic.SplitIfs

/-!
The made-up machine does what it is told. The directories are the same at all times, so that a path
that leads to a place for a file always leads there (`World.sink_eq`), and a file that is made later
makes no difference. Reading leads where writing does (`World.exists_text_of_resolve`).
-/

namespace KernelGraph

namespace World

variable {w w' : World} {path text name : String} {d : Directory}

/-! ### Where paths lead to -/

/-- Whatever the files are, there are directories and devices only. -/
theorem fixed?_cases {place : Place} (h : w.fixed? d name = some place) :
    (∃ d', place = .directory d') ∨ ∃ device, place = .device device := by
  unfold fixed? at h
  split_ifs at h
  · exact .inl ⟨_, (Option.some.inj h).symm⟩
  · obtain ⟨device, -, rfl⟩ := Option.map_eq_some_iff.1 h
    exact .inr ⟨device, rfl⟩

theorem fixed?_eq (h : w'.directories = w.directories) : w'.fixed? d name = w.fixed? d name := by
  rw [fixed?, fixed?, h]

theorem find?_of_fixed? {place : Place} (h : w.fixed? d name = some place) :
    w.find? d name = some place := by
  rw [find?, h]

theorem find?_of_not_fixed? (h : w.fixed? d name = none) :
    w.find? d name = (w.texts.lookup (d, name)).map (.file (d, name)) := by
  rw [find?, h]

theorem fixed?_of_find?_directory {d' : Directory} (h : w.find? d name = some (.directory d')) :
    w.fixed? d name = some (.directory d') := by
  cases hfixed : w.fixed? d name with
  | some place => exact (find?_of_fixed? hfixed).symm.trans h
  | none =>
      rw [find?_of_not_fixed? hfixed] at h
      obtain ⟨text, -, hplace⟩ := Option.map_eq_some_iff.1 h
      cases hplace

/-- The directories that a part leads to do not depend on the files. -/
theorem step_directory {d' : Directory} (hdirectories : w'.directories = w.directories)
    (h : w.step d name = .ok (.directory d')) : w'.step d name = .ok (.directory d') := by
  unfold step at h ⊢
  split_ifs at h ⊢
  · exact h
  · exact h
  · split at h
    · rename_i place hfind
      obtain rfl := Except.ok.inj h
      rw [find?_of_fixed? ((fixed?_eq hdirectories).trans (fixed?_of_find?_directory hfind))]
    · cases h

theorem eq_directory_of_walk {place : Place} {parts : List String}
    (h : w.walk place parts = .ok (.directory d)) : ∃ d', place = .directory d' := by
  cases place with
  | directory d' => exact ⟨d', rfl⟩
  | file | device => cases parts <;> cases h

theorem walk_directory (hdirectories : w'.directories = w.directories) {place : Place}
    {parts : List String} (h : w.walk place parts = .ok (.directory d)) :
    w'.walk place parts = .ok (.directory d) := by
  induction parts generalizing place with
  | nil => exact h
  | cons part parts ih =>
      cases place with
      | file | device => cases h
      | directory d₀ =>
          obtain ⟨place', hstep, h⟩ := exists_of_bind_eq_ok h
          obtain ⟨d', rfl⟩ := eq_directory_of_walk h
          rw [walk, step_directory hdirectories hstep]
          exact ih h

theorem walk_concat (w : World) (place : Place) (front : List String) (name : String) :
    w.walk place (front ++ [name]) = w.walk place front >>= fun place => w.walk place [name] := by
  induction front generalizing place with
  | nil => cases place <;> rfl
  | cons part front ih =>
      cases place with
      | file | device => rfl
      | directory d =>
          rw [List.cons_append, walk, walk]
          cases w.step d part with
          | error e => rfl
          | ok place => exact ih place

/-- A place for a file is the last part of the path, in the directory that the parts before lead
to. -/
structure Reaches (w : World) (path : String) (front : List String) (d : Directory)
    (name : String) : Prop where
  parts : parts path = front ++ [name]
  walk : ∃ place, w.start path = .ok place ∧ w.walk place front = .ok (.directory d)
  here : name ≠ "."
  above : name ≠ ".."
  file : namesDirectory path = false

theorem target_eq_ok_iff : w.target path = .ok (d, name) ↔ ∃ front, w.Reaches path front d name := by
  constructor
  · intro h
    obtain ⟨place, hstart, h⟩ := exists_of_bind_eq_ok h
    split at h
    · cases h
    · rename_i last hlast
      obtain ⟨place', hwalk, h⟩ := exists_of_bind_eq_ok h
      obtain ⟨front, hparts⟩ := List.getLast?_eq_some_iff.1 hlast
      rw [hparts, List.dropLast_concat] at hwalk
      cases place' with
      | file | device => cases h
      | directory d' =>
          dsimp only at h
          split_ifs at h with hname
          obtain ⟨hhere, habove, hfile⟩ : last ≠ "." ∧ last ≠ ".." ∧ ¬ namesDirectory path := by
            simpa only [not_or] using hname
          cases h
          exact ⟨front, hparts, ⟨place, hstart, hwalk⟩, hhere, habove, eq_false_of_ne_true hfile⟩
  · rintro ⟨front, hparts, ⟨place, hstart, hwalk⟩, hhere, habove, hfile⟩
    rw [target, hstart, hparts, List.getLast?_concat, List.dropLast_concat]
    dsimp only [bind, Except.bind]
    rw [hwalk]
    exact if_neg (by simp [hhere, habove, hfile])

theorem target_eq_ok (hdirectories : w'.directories = w.directories)
    (hworking : w'.working = w.working) (h : w.target path = .ok (d, name)) :
    w'.target path = .ok (d, name) := by
  obtain ⟨front, hreaches⟩ := target_eq_ok_iff.1 h
  obtain ⟨place, hstart, hwalk⟩ := hreaches.walk
  have hstart' : w'.start path = .ok place := by
    rw [← hstart, start, start, hworking]
  exact target_eq_ok_iff.2 ⟨front, { hreaches with
    walk := ⟨place, hstart', walk_directory hdirectories hwalk⟩ }⟩

/-- Where the text for a path goes. -/
def sink (w : World) (path : String) : Sink Location :=
  match w.target path with
  | .error _ => .elsewhere
  | .ok (d, name) =>
    match w.fixed? d name with
    | none => .file (d, name)
    | some (.device .output) => .output
    | some (.device .errors) => .errors
    | some _ => .elsewhere

/-- Where texts go does not depend on the files. -/
theorem sink_eq (hdirectories : w'.directories = w.directories)
    (hworking : w'.working = w.working) : w'.sink = w.sink := by
  funext path
  cases h : w.target path with
  | ok location =>
      rw [sink, sink, h, target_eq_ok hdirectories hworking h]
      dsimp only
      rw [fixed?_eq hdirectories]
  | error e =>
      cases h' : w'.target path with
      | error e' => rw [sink, sink, h, h']
      | ok location =>
          have hback := target_eq_ok hdirectories.symm hworking.symm h'
          rw [h] at hback
          cases hback

theorem sink_eq_file_iff {f : Location} :
    w.sink path = .file f ↔ w.target path = .ok f ∧ w.fixed? f.1 f.2 = none := by
  constructor
  · intro h
    unfold sink at h
    split at h
    · cases h
    · rename_i d name htarget
      split at h
      · rename_i hfixed
        cases h
        exact ⟨htarget, hfixed⟩
      · cases h
      · cases h
      · cases h
  · rintro ⟨htarget, hfixed⟩
    obtain ⟨d, name⟩ := f
    rw [sink, htarget]
    dsimp only at hfixed ⊢
    rw [hfixed]

/-- A path whose text goes to a file leads to that file. -/
theorem exists_text_of_resolve {f : Location} {place : Place} (hsink : w.sink path = .file f)
    (h : w.resolve path = .ok place) :
    ∃ text, place = .file f text ∧ w.texts.lookup f = some text := by
  obtain ⟨d, name⟩ := f
  obtain ⟨htarget, hfixed⟩ := sink_eq_file_iff.1 hsink
  obtain ⟨front, hparts, ⟨start, hstart, hwalk⟩, hhere, habove, hfile⟩ := target_eq_ok_iff.1 htarget
  rw [resolve, hstart, hparts] at h
  dsimp only [bind, Except.bind] at h
  rw [walk_concat, hwalk] at h
  have hlast : w.walk (.directory d) [name] = w.step d name := by
    rw [walk]
    cases w.step d name with
    | error e => rfl
    | ok place => cases place <;> rfl
  dsimp only [bind, Except.bind] at h
  rw [hlast, step, if_neg hhere, if_neg habove, find?_of_not_fixed? hfixed] at h
  by_cases hlong : maxName < name.utf8ByteSize
  · rw [if_pos hlong] at h
    cases h
  rw [if_neg hlong] at h
  cases htext : w.texts.lookup (d, name) with
  | none =>
      rw [htext] at h
      cases h
  | some text =>
      rw [htext] at h
      have hplace : (if namesDirectory path then .error PathError.notDirectory
          else .ok (.file (d, name) text)) = Except.ok place := h
      rw [hfile] at hplace
      exact ⟨text, (Except.ok.inj hplace).symm, rfl⟩

/-! ### What is seen -/

/-- What is seen of the machine. -/
def look (w : World) : Sight Location where
  bytes f := (w.texts.lookup f).map String.toUTF8
  sink := w.sink
  printed := w.printed
  errors := w.errors

theorem lookup_filter_ne {texts : List (Location × String)} {f other : Location} (h : other ≠ f) :
    (texts.filter fun file => file.1 ≠ f).lookup other = texts.lookup other := by
  induction texts with
  | nil => rfl
  | cons file texts ih =>
      obtain ⟨key, content⟩ := file
      rw [List.filter_cons, List.lookup_cons]
      by_cases hkey : key = f
      · have hother : (other == key) = false := beq_eq_false_iff_ne.2 (hkey ▸ h)
        rw [if_neg (by simp [hkey]), ih, hother]
      · rw [if_pos (by simp [hkey]), List.lookup_cons, ih]

theorem look_store (w : World) (f : Location) (text : String) : (w.store f text).look =
    { w.look with bytes := Function.update w.look.bytes f (some text.toUTF8) } := by
  have hbytes : (w.store f text).look.bytes = Function.update w.look.bytes f (some text.toUTF8) := by
    funext other
    show ((w.store f text).texts.lookup other).map String.toUTF8 = _
    rw [store, List.lookup_cons]
    by_cases h : other = f
    · subst h
      rw [beq_self_eq_true, Function.update_self]
      rfl
    · rw [beq_eq_false_iff_ne.2 h, Function.update_of_ne h]
      exact congrArg (Option.map String.toUTF8) (lookup_filter_ne h)
  have hsink : (w.store f text).sink = w.sink := sink_eq rfl rfl
  calc (w.store f text).look
      = ⟨(w.store f text).look.bytes, (w.store f text).sink, w.printed, w.errors⟩ := rfl
    _ = _ := by
        rw [hbytes, hsink]
        rfl

/-- A text that is printed, or that stands on the standard error, changes nothing else. -/
theorem look_eq (w : World) (printed : String) (errors : List Notice) :
    World.look { w with printed := printed, errors := errors } =
      { w.look with printed := printed, errors := errors } := by
  have hsink : World.sink { w with printed := printed, errors := errors } = w.sink := sink_eq rfl rfl
  rw [look, hsink]
  rfl

theorem look_writeDevice {device : Device} (h : w.writeDevice text device = .ok w')
    (htarget : w.target path = .ok (d, name)) (hfixed : w.fixed? d name = some (.device device)) :
    w'.look = w.look.write path text := by
  have hsink : w.look.sink path = w.sink path := rfl
  rw [Sight.write, hsink, sink, htarget]
  dsimp only
  rw [hfixed]
  cases device with
  | full => cases h
  | null =>
      cases h
      rfl
  | output =>
      cases h
      exact w.look_eq _ _
  | errors =>
      cases h
      exact w.look_eq _ _

/-- A text that can be written goes where it should. -/
theorem look_written (h : w.written path text = .ok w') : w'.look = w.look.write path text := by
  obtain ⟨⟨d, name⟩, htarget, h⟩ := exists_of_bind_eq_ok h
  obtain ⟨front, -, -, hhere, habove, -⟩ := target_eq_ok_iff.1 htarget
  dsimp only at h
  rw [step, if_neg hhere, if_neg habove] at h
  by_cases hlong : maxName < name.utf8ByteSize
  · rw [if_pos hlong] at h
    cases h
  rw [if_neg hlong] at h
  cases hfixed : w.fixed? d name with
  | some place =>
      rw [find?_of_fixed? hfixed] at h
      obtain ⟨d', rfl⟩ | ⟨device, rfl⟩ := fixed?_cases hfixed
      · cases h
      · exact look_writeDevice h htarget hfixed
  | none =>
      have hw : w' = w.store (d, name) text := by
        rw [find?_of_not_fixed? hfixed] at h
        cases htext : w.texts.lookup (d, name) with
        | none =>
            rw [htext] at h
            exact (Except.ok.inj h).symm
        | some old =>
            rw [htext] at h
            exact (Except.ok.inj h).symm
      have hsink : w.look.sink path = .file (d, name) := sink_eq_file_iff.2 ⟨htarget, hfixed⟩
      rw [hw, look_store, Sight.write, hsink]

theorem read_eq (path : String) (w : World) : read path w = ((read path w).1, w) := by
  unfold read
  split <;> rfl

/-- A text that is read stands in the file that the path leads to. -/
theorem bytes_of_read {f : Location} (hsink : w.sink path = .file f)
    (h : (read path w).1 = .ok text) : w.look.bytes f = some text.toUTF8 := by
  unfold read at h
  split at h
  · cases h
  · cases h
  · rename_i hresolve
    obtain ⟨other, hplace, hother⟩ := exists_text_of_resolve hsink hresolve
    cases hplace
    cases h
    exact congrArg (Option.map String.toUTF8) hother
  · rename_i hresolve
    obtain ⟨other, hplace, -⟩ := exists_text_of_resolve hsink hresolve
    cases hplace

/-- The made-up machine does what it is told. -/
def machine : Machine World Location where
  toPlatform := platform
  look := look
  look_read path w := congrArg (fun out => look out.2) (read_eq path w)
  bytes_of_read := bytes_of_read
  look_write path text w h := by
    have hwrite : platform.write path text w = write path text w := rfl
    rw [hwrite, write] at h ⊢
    cases hwritten : w.written path text with
    | ok w' => exact look_written hwritten
    | error e =>
        rw [hwritten] at h
        cases h
  look_print text w := w.look_eq (w.printed ++ text) w.errors
  look_report event w := w.look_eq w.printed (w.errors ++ [Notice.event event])

end World

end KernelGraph
