import KernelGraph.Command.Run
import KernelGraph.Proofs.Arena
import KernelGraph.Proofs.Recompile

/-!
The text of a graph is read back. The encoded form holds texts and numbers of a word only, in
brackets that nest six deep, and both are read back from any layout (`Graph.read_toText`). The
command reads the compact text of the graph it has compiled so as to indent it: it never fails
there, and what it writes is the indented text of that graph (`Graph.text_reread`).
-/

namespace KernelGraph

open Lowering

namespace Json

/-- Texts and numbers of a word, in brackets that nest at most `depth` deep. -/
inductive Encoded : Nat → Json → Prop
  | text (depth : Nat) (s : String) : Encoded depth (.text s)
  | whole (depth : Nat) {n : Nat} : n < UInt64.size → Encoded depth (.whole n)
  | list {depth : Nat} {items : List Json} : (∀ item ∈ items, Encoded depth item) →
      Encoded (depth + 1) (.list items)
  | record {depth : Nat} {fields : List (String × Json)} :
      (∀ field ∈ fields, Encoded depth field.2) → Encoded (depth + 1) (.record fields)

/-- What holds of the values of a record in canonical form holds of those it is made of. -/
theorem forall_mem_canonicalFields {P : Json → Prop} {fields : List (String × Json)}
    (h : ∀ field ∈ fields, P field.2.canonical) :
    ∀ field ∈ SortedTable.ofList (canonicalFields fields), P field.2 := by
  intro field hfield
  have hmem := SortedTable.mem_of_mem_ofList hfield
  rw [canonicalFields_eq_map] at hmem
  obtain ⟨original, horiginal, rfl⟩ := List.mem_map.1 hmem
  exact h original horiginal

namespace Encoded

variable {depth : Nat} {j : Json}

theorem legible (h : j.Encoded depth) : j.Legible depth := by
  induction h with
  | text depth s => exact .text depth s
  | whole depth hn => exact .number depth (Number.reproduced_whole (Draft.isWord_natCast hn))
  | list _ ih => exact .list ih
  | record _ ih => exact .record ih

/-- Sorting the fields leaves nothing else in a record. -/
theorem canonical (h : j.Encoded depth) : j.canonical.Encoded depth := by
  induction h with
  | text depth s => exact .text depth s
  | whole depth hn => exact .whole depth hn
  | list _ ih =>
      rw [Json.canonical, canonicalItems_eq_map]
      exact .list (List.forall_mem_map.2 ih)
  | record _ ih =>
      rw [Json.canonical]
      exact .record (forall_mem_canonicalFields ih)

/-- The canonical form is its own: its fields are sorted already, and so are those inside. -/
theorem canonical_canonical (h : j.Encoded depth) : j.canonical.canonical = j.canonical := by
  induction h with
  | text | whole => rfl
  | list _ ih =>
      rw [Json.canonical, canonicalItems_eq_map]
      exact AttrValue.canonical_list _ (List.forall_mem_map.2 ih)
  | @record depth fields _ ih =>
      have hsorted : SortedTable.ofList (SortedTable.ofList (canonicalFields fields)) =
          SortedTable.ofList (canonicalFields fields) :=
        SortedTable.ofList_eq_self (SortedTable.sorted_ofList _)
      have hvalues := map_snd_eq_self (f := Json.canonical)
        (forall_mem_canonicalFields (P := fun j => j.canonical = j) ih)
      rw [Json.canonical, Json.canonical, canonicalFields_eq_map (SortedTable.ofList _),
        SortedTable.ofList_map, hsorted, hvalues]

end Encoded

end Json

/-! ### What is encoded -/

/-- The numbers of an entry are words. -/
structure Entry.Fits (e : Entry) : Prop where
  id : e.id < UInt64.size
  index : e.index < UInt64.size
  version : e.version < UInt64.size

/-- The numbers of a graph that are encoded as such are words. -/
structure Graph.Fits (g : Graph) : Prop where
  inputs : ∀ node ∈ g.nodes, ∀ e ∈ node.inputs, e.Fits
  argNodes : ∀ place ∈ g.argNodes, place < UInt64.size
  heads : ∀ e ∈ g.heads, e.Fits

theorem Entry.Fits.encoded {e : Entry} (h : e.Fits) (depth : Nat) :
    e.toJson.Encoded (depth + 1) :=
  .list (List.forall_mem_cons.2 ⟨.whole depth h.id, List.forall_mem_cons.2 ⟨.whole depth h.index,
    List.forall_mem_singleton.2 (.whole depth h.version)⟩⟩)

theorem AttrValue.encoded_encodedJson (v : AttrValue) : v.encodedJson.Encoded 2 :=
  .list (List.forall_mem_map.2 fun _ _ => .list (List.forall_mem_map.2 fun s _ => .text 0 s))

namespace Node

theorem encoded_encodedAttrs (n : Node) : ∀ field ∈ n.encodedAttrs, field.2.Encoded 2 := by
  have hattrs : ∀ field ∈ n.attrs.encodedFields, field.2.Encoded 2 :=
    List.forall_mem_map.2 fun item _ => item.2.encoded_encodedJson
  unfold encodedAttrs
  split
  · refine List.forall_mem_append.2 ⟨hattrs, ?_⟩
    exact List.forall_mem_cons.2 ⟨.text 2 _, List.forall_mem_singleton.2 (.text 2 _)⟩
  · exact hattrs

theorem encoded_toJson {n : Node} (h : ∀ e ∈ n.inputs, e.Fits) : n.toJson.Encoded 4 := by
  refine .record (List.forall_mem_append.2 ⟨?_, ?_⟩)
  · refine List.forall_mem_cons.2 ⟨.text 3 _, List.forall_mem_cons.2 ⟨.text 3 _,
      List.forall_mem_singleton.2 (.list (List.forall_mem_map.2 fun e he => ?_))⟩⟩
    exact (h e he).encoded 1
  · split
    · exact List.forall_mem_nil _
    · exact List.forall_mem_singleton.2 (.record n.encoded_encodedAttrs)

end Node

namespace Graph

/-- The encoded form before it is brought into canonical form. -/
theorem Fits.exists_encoded {g : Graph} (h : g.Fits) :
    ∃ j : Json, g.toJson = j.canonical ∧ j.Encoded 6 := by
  refine ⟨_, rfl, .record (List.forall_mem_cons.2 ⟨?_, List.forall_mem_cons.2 ⟨?_,
    List.forall_mem_cons.2 ⟨?_, List.forall_mem_singleton.2 ?_⟩⟩⟩)⟩
  · exact .list (List.forall_mem_map.2 fun node hnode => Node.encoded_toJson (h.inputs node hnode))
  · exact .list (List.forall_mem_map.2 fun place hplace => .whole 4 (h.argNodes place hplace))
  · exact .list (List.forall_mem_map.2 fun e he => (h.heads e he).encoded 3)
  · exact .list (List.forall_mem_map.2 fun offset _ => .whole 4 offset.toNat_lt)

theorem read_toText {g : Graph} (h : g.Fits) (indented : Bool) :
    Json.read (g.toJson.toText indented) = .ok g.toJson := by
  obtain ⟨j, hj, hencoded⟩ := h.exists_encoded
  rw [hj, hencoded.canonical.legible.read_toText (by decide), hencoded.canonical_canonical]

end Graph

/-! ### Graphs that are compiled -/

theorem Entry.Precedes.fits {e : Entry} {place : Nat} (h : e.Precedes place)
    (hplace : place ≤ UInt64.size) : e.Fits where
  id := h.id.trans_le hplace
  index := h.index ▸ by decide
  version := h.version ▸ by decide

/-- There are as many outputs as nodes. -/
theorem Registry.WellFormed.sum_outputs {r : Registry} (h : r.WellFormed) :
    (r.nodes.map Node.outputs).sum = r.nodes.length := by
  have hones : r.nodes.map Node.outputs = r.nodes.map fun _ => 1 := List.map_congr_left h.outputs
  rw [hones, List.map_const', List.sum_replicate_nat, Nat.mul_one]

/-- A graph with less than a word of outputs has words for places. -/
theorem Lowering.fits_of_serialize {f : Function} {s t : Lowering} {g : Graph}
    (hs : s.registry.WellFormed) (h : serialize f s = (.ok g, t))
    (houtputs : (g.nodes.map Node.outputs).sum < UInt64.size) : g.Fits := by
  have horderly := orderly_serialize f s hs
  rw [h] at horderly
  obtain ⟨entries, m, heads, hparams, hbody, rfl⟩ := serialize_eq_ok_iff.1 h
  cases horderly with
  | ok ht hg =>
      have hcount : t.registry.nodes.length < UInt64.size := ht.sum_outputs ▸ houtputs
      refine ⟨fun node hnode e he => ?_, fun place hplace => ?_, fun e he => ?_⟩
      · obtain ⟨i, hi, rfl⟩ := List.mem_iff_getElem.1 hnode
        have hprecedes := ht.inputs i _ (List.getElem?_eq_getElem hi) e he
        exact hprecedes.fits (hi.trans hcount).le
      · exact (ht.listsArgs.lt hplace).trans hcount
      · obtain ⟨place, node, hheads, hnode⟩ := hg.head
        have hplace := (List.getElem?_eq_some_iff.1 hnode).1
        cases List.mem_singleton.1 (hheads ▸ he)
        exact Entry.Precedes.fits ⟨hplace, rfl, rfl⟩ hcount.le

/-- A function that is known by a name is lowered to a graph, before which nothing was. -/
def Expr.Yields (root : Expr) (fallback : Option String) (g : Graph) : Prop :=
  ∃ f symbol t, root.function? = some f ∧ f.symbol? fallback = some symbol ∧
    serialize f ((start symbol).note (.compiling symbol f.params.length)) = (.ok g, t)

theorem exists_yields_of_compile {root : Expr} {fallback : Option String} {compiled : Compiled}
    {log : List Event} (h : compile root fallback = (.ok compiled, log)) :
    ∃ g, root.Yields fallback g ∧ compiled = .ofGraph g := by
  rw [compile] at h
  cases hf : root.function? with
  | none =>
      rw [hf] at h
      cases h
  | some f =>
      rw [hf] at h
      dsimp only at h
      cases hsymbol : f.symbol? fallback with
      | none =>
          rw [hsymbol] at h
          cases h
      | some symbol =>
          rw [hsymbol] at h
          dsimp only at h
          generalize hout : serialize f _ = out at h
          obtain ⟨err | g, t⟩ := out
          · cases h
          · cases h
            exact ⟨g, ⟨f, symbol, t, hf, hsymbol, hout⟩, rfl⟩

theorem Expr.Yields.fits {root : Expr} {fallback : Option String} {g : Graph}
    (h : root.Yields fallback g) (houtputs : (g.nodes.map Node.outputs).sum < UInt64.size) :
    g.Fits := by
  obtain ⟨f, symbol, t, -, -, hserialize⟩ := h
  exact fits_of_serialize Registry.wellFormed_empty hserialize houtputs

/-- What the command makes of a document whose graph it can read again. -/
theorem Invocation.compileText_eq_ok {inv : Invocation} {text : String} {document : Document}
    {root : Expr} {g : Graph} {log : List Event} (hparse : Document.parse text = .ok document)
    (hbuild : document.build = .ok root)
    (hcompile : compile root inv.symbol = (.ok (.ofGraph g), log))
    (hread : Json.read g.toJson.compact = .ok g.toJson) :
    inv.compileText text =
      (.ok ⟨g.toJson.toText inv.pretty, (Graph.paramsToJson g.params).toText inv.pretty⟩,
        log ++ [.compiled g.symbol]) := by
  rw [compileText, hparse]
  dsimp only
  rw [hbuild]
  dsimp only
  rw [hcompile]
  cases hpretty : inv.pretty with
  | false => rfl
  | true =>
      have hagain : Json.read (Compiled.ofGraph g).graphText = .ok g.toJson := hread
      dsimp only
      rw [hagain]
      rfl

/-- The encoded form of a graph is read back from its text, compact or indented, if what is encoded
as numbers are words. So are those of a compiled graph with less than a word of outputs, which the
command therefore reads again without fail: it writes the graph's own text, compact or indented as
it is asked to. -/
theorem Graph.text_reread :
    (∀ g : Graph, g.Fits → ∀ indented,
      Json.read (g.toJson.toText indented) = .ok g.toJson) ∧
    ∀ (inv : Invocation) (text : String) (document : Document) (root : Expr) (compiled : Compiled)
      (log : List Event), Document.parse text = .ok document → document.build = .ok root →
      compile root inv.symbol = (.ok compiled, log) →
      ∃ g, root.Yields inv.symbol g ∧ compiled = .ofGraph g ∧
        ((g.nodes.map Node.outputs).sum < UInt64.size →
          g.Fits ∧ inv.compileText text =
            (.ok ⟨g.toJson.toText inv.pretty, (Graph.paramsToJson g.params).toText inv.pretty⟩,
              log ++ [.compiled g.symbol])) := by
  refine ⟨fun g hg => read_toText hg, fun inv text document root compiled log hparse hbuild h => ?_⟩
  obtain ⟨g, hg, rfl⟩ := exists_yields_of_compile h
  refine ⟨g, hg, rfl, fun houtputs => ?_⟩
  have hfits := hg.fits houtputs
  exact ⟨hfits, Invocation.compileText_eq_ok hparse hbuild h (read_toText hfits false)⟩

/-! A cast with an attribute whose name and text are full of escapes, and a graph of the largest
numbers. -/

namespace Cast

def quoted : Attributes := ⟨[("\"name\"\n", .text "\\ \t \u0001 é")]⟩

def document : Document :=
  ⟨[.var "x" none, .call (some "cast") none [0] quoted, .function [0] 1 .empty], 2⟩

def far : Graph :=
  ⟨"far", [.kernel "cast" [⟨18446744073709551615, 0, 0⟩] 1 quoted], [18446744073709551615],
    [⟨0, 18446744073709551615, 18446744073709551615⟩], []⟩

theorem document_reproduced : document.Reproduced := by
  refine ⟨by decide, List.forall_mem_cons.2 ⟨⟨nofun, nofun, nofun⟩,
    List.forall_mem_cons.2 ⟨⟨by decide, ?_, nofun⟩,
      List.forall_mem_singleton.2 ⟨by decide, nofun, nofun⟩⟩⟩⟩
  exact List.forall_mem_singleton.2 nofun

theorem eq_graph_of_yields {attrs : Attributes} {g : Graph}
    (h : (main attrs .empty).Yields (some "main") g) : g = graph attrs "main" := by
  obtain ⟨f, symbol, t, hf, hsymbol, hserialize⟩ := h
  cases hf
  obtain rfl : "main" = symbol := Option.some.inj hsymbol
  have hgraph := congrArg Prod.fst hserialize
  exact Except.ok.inj (hgraph.symm.trans (serialize_graph "main" _))

/-- The text of the document is compiled to indented text, and the largest numbers are read
back. -/
theorem compileText_quoted :
    (far.Fits ∧ ∀ indented, Json.read (far.toJson.toText indented) = .ok far.toJson) ∧
    ∃ log, Invocation.compileText ⟨"cast.json", some "main", none, none, true⟩
      document.toJson.compact = (.ok ⟨(graph quoted "main").toJson.pretty, "\x7b\x7d"⟩, log) := by
  have hfar : far.Fits := by
    refine ⟨?_, by decide, ?_⟩
    · exact List.forall_mem_singleton.2
        (List.forall_mem_singleton.2 ⟨by decide, by decide, by decide⟩)
    · exact List.forall_mem_singleton.2 ⟨by decide, by decide, by decide⟩
  refine ⟨⟨hfar, Graph.text_reread.1 far hfar⟩, ?_⟩
  have hparse : Document.parse document.toJson.compact = .ok document :=
    Document.parse_eq_ok document_reproduced false
  have hbuild : document.build = .ok (main quoted .empty) := rfl
  have hcompile : (compile (main quoted .empty) (some "main")).1 =
      .ok (.ofGraph (graph quoted "main")) := compile_main rfl
  obtain ⟨g, hg, -, htext⟩ := Graph.text_reread.2
    ⟨"cast.json", some "main", none, none, true⟩ _ _ _ _ _ hparse hbuild (Prod.ext hcompile rfl)
  obtain rfl := eq_graph_of_yields hg
  exact ⟨_, (htext (by decide)).2⟩

end Cast

end KernelGraph
