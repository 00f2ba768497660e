import KernelGraph.Fusion.Padding

/-!
The bodies of fused functions. A body is a chain of calls, followed from the output back to the
input through argument 0. Each family takes its links off the front of the chain, some of which must
be there and some of which may; the links that it took are its pattern.
-/

namespace KernelGraph

/-- The two activations that come between a dequantize and a quantize. -/
inductive Activation where
  | softmax
  | sigmoid
deriving DecidableEq

namespace Activation

def operator : Activation → Operator
  | softmax => .softmax
  | sigmoid => .sigmoid

def family : Activation → Family
  | softmax => .qnnSoftmax
  | sigmoid => .qnnSigmoid

def kind : Activation → FusedKind
  | softmax => .qnnSoftmax
  | sigmoid => .qnnSigmoid

def kernelName : Activation → String
  | softmax => "qnn.softmax"
  | sigmoid => "qnn.sigmoid"

end Activation

/-- The two pools. -/
inductive Pooling where
  | average
  | maximum
deriving DecidableEq

namespace Pooling

def operator : Pooling → Operator
  | average => .avgPool2d
  | maximum => .maxPool2d

def kind : Pooling → FusedKind
  | average => .avgPool2d
  | maximum => .maxPool2d

end Pooling

/-- The calls that a family took off a chain. The one that computes is named `compute`. -/
inductive Pattern where
  | convolution (pad : Option Call) (compute : Call) (bias requantize : Option Call)
  | dense (compute : Call) (bias requantize : Option Call)
  | activation (which : Activation) (dequantize compute quantize : Call)
  | avgPool (preCast compute postCast : Call)
  | pool (which : Pooling) (pad : Option Call) (compute : Call)

/-- The front of a chain, if it calls one of some operators, and what is left of the chain. -/
def takeIf (ops : List Operator) : List Call → Option Call × List Call
  | [] => (none, [])
  | c :: chain => if ops.any c.isOp then (some c, chain) else (none, c :: chain)

/-- What a chain starts with. -/
def firstLink : List Call → Link
  | [] => .nothing
  | c :: _ => .call c.description

/-- The front of a chain, which must call `op`, and what is left of the chain. -/
def expectOp (family : Family) (op : Operator) (chain : List Call) :
    Except LoweringError (Call × List Call) :=
  match takeIf [op] chain with
  | (some c, rest) => .ok (c, rest)
  | (none, _) => .error (.mismatch family (.call op.name) (firstLink chain))

namespace Pattern

def family : Pattern → Family
  | convolution .. => .convolution
  | dense .. => .dense
  | activation which .. => which.family
  | avgPool .. => .qnnAvgPool
  | pool .. => .pool

/-- The kind whose body this is. Convolutions and dense layers are quantized if they requantize. -/
def kind : Pattern → FusedKind
  | convolution _ _ _ requantize => if requantize.isSome then .qnnConv2d else .conv2d
  | dense _ _ requantize => if requantize.isSome then .qnnDense else .dense
  | activation which .. => which.kind
  | avgPool .. => .qnnAvgPool2d
  | pool which .. => which.kind

def compute : Pattern → Call
  | convolution _ c _ _ | dense c _ _ | activation _ _ c _ | avgPool _ c _ | pool _ _ c => c

/-- The pad that was taken. -/
def pad? : Pattern → Option Call
  | convolution pad .. | pool _ pad _ => pad
  | _ => none

/-- All calls that were taken, from the output to the input. -/
def calls : Pattern → List Call
  | convolution pad compute bias requantize =>
    requantize.toList ++ bias.toList ++ compute :: pad.toList
  | dense compute bias requantize => requantize.toList ++ bias.toList ++ [compute]
  | activation _ dequantize compute quantize => [quantize, compute, dequantize]
  | avgPool preCast compute postCast => [postCast, compute, preCast]
  | pool _ pad compute => compute :: pad.toList

/-- The links that a family takes off a chain. -/
def ofChain (family : Family) (chain : List Call) : Except LoweringError Pattern :=
  match family with
  | .convolution => do
    let (requantize, chain) := takeIf [.requantize] chain
    let (bias, chain) := takeIf [.biasAdd, .add] chain
    let (compute, chain) ←
      expectOp family (if requantize.isSome then .qnnConv2d else .conv2d) chain
    let (pad, _) := takeIf [.pad] chain
    .ok (.convolution pad compute bias requantize)
  | .dense => do
    let (requantize, chain) := takeIf [.requantize] chain
    let (bias, chain) := takeIf [.biasAdd, .add] chain
    let (compute, _) ← expectOp family (if requantize.isSome then .qnnDense else .dense) chain
    .ok (.dense compute bias requantize)
  | .qnnSoftmax => ofActivation .softmax chain
  | .qnnSigmoid => ofActivation .sigmoid chain
  | .qnnAvgPool => do
    let (postCast, chain) ← expectOp family .cast chain
    let (compute, chain) ← expectOp family .avgPool2d chain
    let (preCast, _) ← expectOp family .cast chain
    .ok (.avgPool preCast compute postCast)
  | .pool =>
    match takeIf [.avgPool2d] chain, takeIf [.maxPool2d] chain with
    | (some compute, rest), _ => .ok (.pool .average (takeIf [.pad] rest).1 compute)
    | _, (some compute, rest) => .ok (.pool .maximum (takeIf [.pad] rest).1 compute)
    | _, _ => .error (.mismatch family (.either .avgPool2d .maxPool2d) (firstLink chain))
where
  ofActivation (which : Activation) (chain : List Call) : Except LoweringError Pattern := do
    let (quantize, chain) ← expectOp which.family .quantize chain
    let (compute, chain) ← expectOp which.family which.operator chain
    let (dequantize, _) ← expectOp which.family .dequantize chain
    .ok (.activation which dequantize compute quantize)

/-- The chain of the function that is called. -/
def chainOf (family : Family) (root : Call) : Except LoweringError (List Call) :=
  match root.function? with
  | none => .error (.unsupportedTarget root.description)
  | some f =>
    if f.body.call?.isSome then .ok f.body.chain
    else .error (.mismatch family .anyCall (.node f.body.typeKey))

/-- The pattern of a call of a fused function. -/
def ofCall (family : Family) (root : Call) : Except LoweringError Pattern := do
  ofChain family (← chainOf family root)

/-- The pattern of a call of a fused function that declares `kind`, which must be its kind. -/
def ofKind (kind : FusedKind) (root : Call) : Except LoweringError Pattern := do
  let pattern ← ofCall kind.family root
  if pattern.kind = kind then .ok pattern
  else .error (.mismatch kind.family (.body kind) (.body pattern.kind))

end Pattern

theorem takeIf_some {ops : List Operator} {chain rest : List Call} {c : Call}
    (h : takeIf ops chain = (some c, rest)) : chain = c :: rest := by
  cases chain with
  | nil => simp [takeIf] at h
  | cons a chain =>
    rw [takeIf] at h
    split at h <;> simp_all

theorem takeIf_none {ops : List Operator} {chain rest : List Call}
    (h : takeIf ops chain = (none, rest)) : chain = rest := by
  cases chain with
  | nil => simp_all [takeIf]
  | cons a chain =>
    rw [takeIf] at h
    split at h <;> simp_all

/-- Nothing of a chain is lost when its front is taken or left. -/
theorem takeIf_append (ops : List Operator) (chain : List Call) :
    (takeIf ops chain).1.toList ++ (takeIf ops chain).2 = chain := by
  match h : takeIf ops chain with
  | (some c, rest) => simp [takeIf_some h]
  | (none, rest) => simp [takeIf_none h]

theorem expectOp_ok {family : Family} {op : Operator} {chain rest : List Call} {c : Call}
    (h : expectOp family op chain = .ok (c, rest)) : chain = c :: rest := by
  unfold expectOp at h
  split at h
  · rename_i c' rest' heq
    cases h
    exact takeIf_some heq
  · simp at h

theorem exists_of_bind_eq_ok {ε α β : Type} {x : Except ε α} {f : α → Except ε β} {b : β}
    (h : x >>= f = .ok b) : ∃ a, x = .ok a ∧ f a = .ok b := by
  cases x with
  | error e => cases h
  | ok a => exact ⟨a, rfl, h⟩

namespace Pattern

theorem calls_append_of_activation {which : Activation} {chain : List Call} {p : Pattern}
    (h : ofChain.ofActivation which chain = .ok p) : ∃ rest, p.calls ++ rest = chain := by
  obtain ⟨⟨quantize, chain₁⟩, h₁, h⟩ := exists_of_bind_eq_ok h
  obtain ⟨⟨compute, chain₂⟩, h₂, h⟩ := exists_of_bind_eq_ok h
  obtain ⟨⟨dequantize, rest⟩, h₃, h⟩ := exists_of_bind_eq_ok h
  cases h
  exact ⟨rest, by simp [calls, expectOp_ok h₁, expectOp_ok h₂, expectOp_ok h₃]⟩

/-- What a family takes is what its chain starts with. -/
theorem calls_append_of_chain {family : Family} {chain : List Call} {p : Pattern}
    (h : ofChain family chain = .ok p) : ∃ rest, p.calls ++ rest = chain := by
  cases family with
  | convolution =>
    simp only [ofChain] at h
    have h₁ := takeIf_append [.requantize] chain
    have h₂ := takeIf_append [.biasAdd, .add] (takeIf [.requantize] chain).2
    obtain ⟨⟨compute, chain₃⟩, h₃, h⟩ := exists_of_bind_eq_ok h
    have h₄ := takeIf_append [.pad] chain₃
    cases h
    refine ⟨(takeIf [.pad] chain₃).2, ?_⟩
    simp only [calls, List.append_assoc, List.cons_append]
    rw [h₄, ← expectOp_ok h₃, h₂, h₁]
  | dense =>
    simp only [ofChain] at h
    have h₁ := takeIf_append [.requantize] chain
    have h₂ := takeIf_append [.biasAdd, .add] (takeIf [.requantize] chain).2
    obtain ⟨⟨compute, rest⟩, h₃, h⟩ := exists_of_bind_eq_ok h
    cases h
    refine ⟨rest, ?_⟩
    simp only [calls, List.append_assoc, List.cons_append, List.nil_append]
    rw [← expectOp_ok h₃, h₂, h₁]
  | qnnSoftmax => exact calls_append_of_activation h
  | qnnSigmoid => exact calls_append_of_activation h
  | qnnAvgPool =>
    obtain ⟨⟨postCast, chain₁⟩, h₁, h⟩ := exists_of_bind_eq_ok h
    obtain ⟨⟨compute, chain₂⟩, h₂, h⟩ := exists_of_bind_eq_ok h
    obtain ⟨⟨preCast, rest⟩, h₃, h⟩ := exists_of_bind_eq_ok h
    cases h
    exact ⟨rest, by simp [calls, expectOp_ok h₁, expectOp_ok h₂, expectOp_ok h₃]⟩
  | pool =>
    simp only [ofChain] at h
    split at h
    · rename_i compute rest hc
      cases h
      exact ⟨(takeIf [.pad] rest).2, by simp [calls, takeIf_some hc, takeIf_append]⟩
    · rename_i compute rest hc _
      cases h
      exact ⟨(takeIf [.pad] rest).2, by simp [calls, takeIf_some hc, takeIf_append]⟩
    · cases h

/-- Every call of a pattern is smaller than the call it was found for. -/
theorem size_lt_of_mem_calls {family : Family} {root c : Call} {p : Pattern}
    (h : ofCall family root = .ok p) (hc : c ∈ p.calls) : c.size < root.size := by
  obtain ⟨chain, hchain, h⟩ := exists_of_bind_eq_ok h
  obtain ⟨rest, hrest⟩ := calls_append_of_chain h
  have hmem : c ∈ chain := hrest ▸ List.mem_append_left rest hc
  unfold chainOf at hchain
  split at hchain
  · cases hchain
  · rename_i f hf
    split at hchain
    · cases hchain
      have := Expr.size_le_of_mem_chain hmem
      have := Call.body_size_lt hf
      omega
    · cases hchain

end Pattern

end KernelGraph
