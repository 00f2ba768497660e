import KernelGraph.Fusion.Pattern

/-!
The kernel that a fused call is lowered to: its operands, its name and its attributes.

The order of the operands is what the engine that runs the graph relies on:

| family | operands |
|---|---|
| convolution, dense | data, weight, then if requantized both zero points and both scales, the bias if there is one, and if requantized the scale and the zero point of the output and of the bias |
| softmax, sigmoid | data, scale and zero point of the input, scale and zero point of the output |
| pools | data |
-/

namespace KernelGraph

/-- An operand: an argument of one of the calls that make up a fused call. -/
structure Operand where
  call : Call
  position : Nat
  role : Role

namespace Operand

def expr? (o : Operand) : Option Expr := o.call.arg? o.position

/-- What is wrong if the argument is not there. -/
def missing (o : Operand) : Violation :=
  .missingOperand o.call.description o.call.args.length o.role o.position

end Operand

namespace Pattern

/-- The operands of a convolution or a dense layer. -/
def computeOperands (root compute : Call) (bias requantize : Option Call) : List Operand :=
  let scaling : List Operand :=
    [⟨compute, 2, .inputZeroPoint⟩, ⟨compute, 3, .weightZeroPoint⟩, ⟨compute, 4, .inputScale⟩,
      ⟨compute, 5, .weightScale⟩]
  let rescaling (r : Call) : List Operand :=
    [⟨r, 3, .outputScale⟩, ⟨r, 4, .outputZeroPoint⟩, ⟨r, 1, .biasScale⟩, ⟨r, 2, .biasZeroPoint⟩]
  [⟨root, 0, .data⟩, ⟨compute, 1, .weight⟩]
    ++ (if requantize.isSome then scaling else [])
    ++ (match bias with | some b => [⟨b, 1, .bias⟩] | none => [])
    ++ (match requantize with | some r => rescaling r | none => [])

/-- The operands of the kernel, in order, where `root` is the fused call itself. -/
def operands (root : Call) : Pattern → List Operand
  | convolution _ compute bias requantize => computeOperands root compute bias requantize
  | dense compute bias requantize => computeOperands root compute bias requantize
  | activation _ dequantize _ quantize =>
    [⟨root, 0, .data⟩, ⟨dequantize, 1, .inputScale⟩, ⟨dequantize, 2, .inputZeroPoint⟩,
      ⟨quantize, 1, .outputScale⟩, ⟨quantize, 2, .outputZeroPoint⟩]
  | avgPool .. | pool .. => [⟨root, 0, .data⟩]

def kernelName : Pattern → String
  | convolution _ _ _ requantize =>
    (if requantize.isSome then Operator.qnnConv2d else Operator.conv2d).name
  | dense _ _ requantize => (if requantize.isSome then Operator.qnnDense else Operator.dense).name
  | activation which .. => which.kernelName
  | avgPool .. => "qnn.avg_pool2d"
  | pool which .. => which.operator.name

/-- What must hold before the operands are lowered. -/
def check : Pattern → Except Violation Unit
  | convolution _ compute .. => compute.checkConvLayouts
  | _ => .ok ()

/-- The padding of a pad, which asks a pool for its layout first. -/
def padding? : Pattern → Except Violation (Option (List String))
  | convolution (some pad) .. => some <$> pad.padding
  | pool _ (some pad) compute => do
    compute.checkPoolLayout
    some <$> pad.padding
  | _ => .ok none

/-- The attributes of the kernel: those of the call that computes, and the padding if there is a
pad. -/
def attrs (p : Pattern) : Except Violation Attributes := do
  let copied := Attributes.empty.extend p.compute.attrs
  match ← p.padding? with
  | some padding => .ok (copied.set paddingName (.texts padding))
  | none => .ok copied

theorem compute_mem_calls (p : Pattern) : p.compute ∈ p.calls := by
  cases p <;> simp [compute, calls]

theorem call_of_mem_computeOperands {root compute : Call} {bias requantize : Option Call} :
    ∀ o ∈ computeOperands root compute bias requantize,
      o.call = root ∨ o.call = compute ∨ bias = some o.call ∨ requantize = some o.call := by
  cases bias <;> cases requantize <;> simp [computeOperands]

/-- Every operand is an argument of the fused call or of a call that was taken. -/
theorem call_of_mem_operands {p : Pattern} {root : Call} :
    ∀ o ∈ p.operands root, o.call = root ∨ o.call ∈ p.calls := by
  cases p with
  | convolution pad compute bias requantize =>
    intro o h
    have := call_of_mem_computeOperands o h
    simp only [calls, List.mem_append, List.mem_cons, Option.mem_toList]
    grind
  | dense compute bias requantize =>
    intro o h
    have := call_of_mem_computeOperands o h
    simp only [calls, List.mem_append, List.mem_cons, Option.mem_toList]
    grind
  | activation => simp [operands, calls]
  | avgPool => simp [operands]
  | pool => simp [operands]

/-- Every operand is smaller than the fused call. -/
theorem size_lt_of_mem_operands {family : Family} {root : Call} {p : Pattern} {o : Operand}
    {e : Expr} (hp : ofCall family root = .ok p) (ho : o ∈ p.operands root)
    (he : o.expr? = some e) : e.size < root.size := by
  have hsize := Call.size_lt_of_arg? he
  rcases call_of_mem_operands o ho with h | h
  · rwa [h] at hsize
  · exact Nat.lt_trans hsize (size_lt_of_mem_calls hp h)

theorem ofCall_of_ofKind {kind : FusedKind} {root : Call} {p : Pattern}
    (h : ofKind kind root = .ok p) : ofCall kind.family root = .ok p ∧ p.kind = kind := by
  obtain ⟨q, hq, h⟩ := exists_of_bind_eq_ok h
  split at h
  · cases h
    exact ⟨hq, by assumption⟩
  · cases h

end Pattern

end KernelGraph
