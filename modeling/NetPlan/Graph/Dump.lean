import NetPlan.Graph.Program
import NetPlan.Text.Json

/-!
# Graph/Dump — a graph as structured text

For inspection: every node in processing order with its edges, its marks, its cached layout and the
implementation it is bound to.
-/

namespace NetPlan

/-- A size, axis by axis. -/
def Shape.dump (s : Shape) : Json :=
  .obj [("batch", .num s.batch), ("feature", .num s.feature), ("x", .num s.x), ("y", .num s.y)]

/-- Element type, format, size and padding of a buffer. -/
def Layout.dump (l : Layout) : Json :=
  .obj
    [("data_type", .str l.element.name), ("format", .str l.format.name), ("size", l.size.dump),
      ("padding", .obj [("lower", l.padding.lower.dump), ("upper", l.padding.upper.dump)])]

/-- A node with its edges and marks, its layout if that is known, and its plan. -/
def Node.dump (n : Node) : Json :=
  .obj
    [("id", .str n.id), ("type", .str n.kind.name), ("dependencies", .strings n.dependencies),
      ("users", .strings n.users), ("output", .bool n.isOutput), ("constant", .bool n.isConstant),
      ("data_flow", .bool n.isDataFlow), ("layout", .optional Layout.dump n.layout),
      ("kernel", .optional (fun plan => .str plan.implementation) n.plan)]

/-- The nodes in processing order, and the ids of inputs, outputs and nodes that were taken out. -/
def Program.dump (p : Program) : Json :=
  .obj
    [("nodes", .arr ((p.order.ids.filterMap p.node?).map Node.dump)), ("inputs", .strings p.inputs),
      ("outputs", .strings p.outputs), ("optimized_out", .strings p.removed)]

end NetPlan
