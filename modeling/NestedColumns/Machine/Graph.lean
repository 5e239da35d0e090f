/-
The drawing of a machine.

The machine is drawn as a directed graph in the text form of graph-drawing tools: one edge for each
pair of a leaf and a name that its levels lead to, labelled with those levels. Names stand for
states, so a leaf that is called like the end falls together with it.
-/

import NestedColumns.Entries
import NestedColumns.Machine.Basic

namespace NestedColumns.Machine

/-- The name of a target in the drawing. -/
def targetName (machine : Machine) (target : Option FieldId) : String :=
  ((target.bind machine.state?).map (·.name)).getD "end"

/-- The names that the levels of a state lead to, in order, each with its levels. -/
def edges (machine : Machine) (state : State) : Entries (List Level) :=
  state.targets.zipIdx.foldl
    (fun edges (target, level) =>
      Entries.change (machine.targetName target) (fun levels? => levels?.getD [] ++ [level]) edges)
    []

/-- The line of an edge. -/
def edgeLine (source target : String) (levels : List Level) : String :=
  let label := ", ".intercalate (levels.map toString)
  s!"    \"{source}\" -> \"{target}\" [label=\"[{label}]\"];\n"

/-- The text of the graph. -/
def graph (machine : Machine) : String :=
  "digraph finite_state_machine \x7b\n    size=\"8,5\"\n" ++
  "    node [shape = doublecircle]; \"end\" [label=\"\"];\n" ++
  "    node [shape = rect, style = rounded];\n\n" ++
  String.join (machine.states.flatMap fun state =>
    (machine.edges state).map fun (target, levels) => edgeLine state.name target levels) ++
  "\x7d\n"

end NestedColumns.Machine
