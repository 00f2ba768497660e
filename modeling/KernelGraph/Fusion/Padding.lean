import KernelGraph.Lowering.Error

/-!
Layouts and padding. The padding of a kernel is read from axes 2 and 3 of a pad, which are height and
width only where the channels come first, so the layout is looked at before the padding is.
-/

namespace KernelGraph

/-- The attribute of a kernel that holds its padding. -/
def paddingName : String := "padding"

namespace Call

/-- The layout that an attribute gives, which must be a text if it is there. -/
def layout (c : Call) (attr standard : String) : Except Violation String :=
  match c.attrs.get? attr with
  | none => .ok standard
  | some (.text layout) => .ok layout
  | some other => .error (.layoutKind attr other.kindName)

/-- The layouts of a convolution: that of the data and that of the weights. -/
def convLayouts (conv : Call) : Except Violation (String × String) := do
  let data ← conv.layout "data_layout" dataLayout
  let kernel ← conv.layout "kernel_layout" kernelLayout
  .ok (data, kernel)

/-- Succeeds if a convolution has the layouts that can be lowered. -/
def checkConvLayouts (conv : Call) : Except Violation Unit := do
  let (data, kernel) ← conv.convLayouts
  if kernel ≠ kernelLayout then .error (.kernelLayout kernel)
  else if data ≠ dataLayout then .error (.dataLayout data)
  else .ok ()

/-- Succeeds if a pool has the layout that can be padded. -/
def checkPoolLayout (pool : Call) : Except Violation Unit := do
  let layout ← pool.layout "layout" dataLayout
  if layout ≠ dataLayout then .error (.poolLayout layout) else .ok ()

end Call

/-- The padding of four rows of what is added before and after: top, left, bottom, right. -/
def paddingOfWidth? : List (List Int64) → Option (List String)
  | [[_, _], [_, _], [top, bottom], [left, right]] =>
    some ([top, left, bottom, right].map AttrValue.decimal)
  | _ => none

/-- The padding that a pad adds. -/
def Call.padding (pad : Call) : Except Violation (List String) :=
  match (pad.attrs.get? padWidthName).bind AttrValue.grid? with
  | none => .error .noPadWidth
  | some rows =>
    match paddingOfWidth? rows with
    | some padding => .ok padding
    | none => .error (.padWidth rows)

end KernelGraph
