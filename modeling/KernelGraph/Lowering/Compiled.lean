import KernelGraph.Graph.Json
import KernelGraph.Lowering.Basic

/-!
What a runtime needs of a function: its kernel graph as text, and the constants of the graph.
-/

namespace KernelGraph

structure Compiled where
  symbol : String
  graphText : String
  constNames : List String
  params : List (String × Tensor)

namespace Compiled

def ofGraph (g : Graph) : Compiled := ⟨g.symbol, g.toJson.compact, g.constNames, g.params⟩

/-- The table of constants by their names. -/
def paramsJson (c : Compiled) : Json := Graph.paramsToJson c.params

/-- The constants in order, each with its name, as they are and not in canonical form. -/
def paramListJson (c : Compiled) : Json :=
  .list (c.params.map fun (name, value) => .list [.text name, value.toJson])

end Compiled

/-- The name by which the outside knows a function: its own, or else the one that is given. -/
def Function.symbol? (f : Function) (fallback : Option String) : Option String :=
  f.attrs.getText? symbolName <|> fallback

/-- Compiles a function, and tells what was reported on the way. -/
def compile (e : Expr) (fallback : Option String) : Except LoweringError Compiled × List Event :=
  match e.function? with
  | none => (.error (.unsupportedTarget e.typeKey), [])
  | some f =>
    match f.symbol? fallback with
    | none => (.error .missingSymbol, [])
    | some symbol =>
      let s := (Lowering.start symbol).note (.compiling symbol f.params.length)
      match Lowering.serialize f s with
      | (.error e, s) => (.error e, s.log)
      | (.ok g, s) =>
        (.ok (.ofGraph g), s.log ++ [.built g.symbol g.nodes.length g.params.length])

end KernelGraph
