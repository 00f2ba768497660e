import KernelGraph.Proofs.Identity

/-!
What the name of a fused function promises: the calls that its body starts with, as a sequence of
slots, and the operands of its kernel, as a table of places. The patterns that are matched keep both
promises: they are what fills the slots (`ofKind_iff_follows`), and their operands are those of the
table (`operands_eq`).
-/

namespace KernelGraph

/-- What a call is to the body of a fused function. -/
inductive Part where
  | outer
  | rescaling
  | bias
  | compute
  | inner
  | pad
deriving DecidableEq

/-- A place in a sequence of calls, which one of some operators can fill. -/
structure Slot where
  part : Part
  ops : List Operator
  optional : Bool

def Slot.Accepts (slot : Slot) (c : Call) : Prop := ∃ op ∈ slot.ops, c.callee = .op op.name

/-- A chain starts with the calls that some slots ask for, one for each slot. An optional slot may
stay empty, but only if the call that comes next does not fit. -/
inductive Follows : List Slot → List Call → List (Part × Call) → Prop
  | done (chain : List Call) : Follows [] chain []
  | take {slot : Slot} {slots : List Slot} {c : Call} {chain : List Call}
      {links : List (Part × Call)} : slot.Accepts c → Follows slots chain links →
      Follows (slot :: slots) (c :: chain) ((slot.part, c) :: links)
  | skip {slot : Slot} {slots : List Slot} {chain : List Call} {links : List (Part × Call)} :
      slot.optional = true → (∀ c ∈ chain.head?, ¬slot.Accepts c) → Follows slots chain links →
      Follows (slot :: slots) chain links

/-- An operand of a kernel: an argument of the fused call itself, or of a part of its body. -/
structure OperandPlace where
  part : Option Part
  position : Nat
  role : Role

/-- The operand at a place, unless it is of a part that is not there. -/
def OperandPlace.operand? (root : Call) (links : List (Part × Call)) (p : OperandPlace) :
    Option Operand :=
  match p.part with
  | none => some ⟨root, p.position, p.role⟩
  | some part => (links.lookup part).map fun c => ⟨c, p.position, p.role⟩

namespace FusedKind

/-- The calls that a body starts with, from the output to the input. -/
def slots : FusedKind → List Slot
  | dense => [⟨.bias, [.biasAdd, .add], true⟩, ⟨.compute, [.dense], false⟩]
  | qnnDense =>
    [⟨.rescaling, [.requantize], false⟩, ⟨.bias, [.biasAdd, .add], true⟩,
      ⟨.compute, [.qnnDense], false⟩]
  | conv2d =>
    [⟨.bias, [.biasAdd, .add], true⟩, ⟨.compute, [.conv2d], false⟩, ⟨.pad, [.pad], true⟩]
  | qnnConv2d =>
    [⟨.rescaling, [.requantize], false⟩, ⟨.bias, [.biasAdd, .add], true⟩,
      ⟨.compute, [.qnnConv2d], false⟩, ⟨.pad, [.pad], true⟩]
  | qnnSoftmax =>
    [⟨.outer, [.quantize], false⟩, ⟨.compute, [.softmax], false⟩, ⟨.inner, [.dequantize], false⟩]
  | qnnSigmoid =>
    [⟨.outer, [.quantize], false⟩, ⟨.compute, [.sigmoid], false⟩, ⟨.inner, [.dequantize], false⟩]
  | qnnAvgPool2d =>
    [⟨.outer, [.cast], false⟩, ⟨.compute, [.avgPool2d], false⟩, ⟨.inner, [.cast], false⟩]
  | avgPool2d => [⟨.compute, [.avgPool2d], false⟩, ⟨.pad, [.pad], true⟩]
  | maxPool2d => [⟨.compute, [.maxPool2d], false⟩, ⟨.pad, [.pad], true⟩]

/-- The operands of the kernel, in order. -/
def places : FusedKind → List OperandPlace
  | dense | conv2d => [⟨none, 0, .data⟩, ⟨some .compute, 1, .weight⟩, ⟨some .bias, 1, .bias⟩]
  | qnnDense | qnnConv2d =>
    [⟨none, 0, .data⟩, ⟨some .compute, 1, .weight⟩, ⟨some .compute, 2, .inputZeroPoint⟩,
      ⟨some .compute, 3, .weightZeroPoint⟩, ⟨some .compute, 4, .inputScale⟩,
      ⟨some .compute, 5, .weightScale⟩, ⟨some .bias, 1, .bias⟩, ⟨some .rescaling, 3, .outputScale⟩,
      ⟨some .rescaling, 4, .outputZeroPoint⟩, ⟨some .rescaling, 1, .biasScale⟩,
      ⟨some .rescaling, 2, .biasZeroPoint⟩]
  | qnnSoftmax | qnnSigmoid =>
    [⟨none, 0, .data⟩, ⟨some .inner, 1, .inputScale⟩, ⟨some .inner, 2, .inputZeroPoint⟩,
      ⟨some .outer, 1, .outputScale⟩, ⟨some .outer, 2, .outputZeroPoint⟩]
  | qnnAvgPool2d | avgPool2d | maxPool2d => [⟨none, 0, .data⟩]

/-- The operands of the call `root`, whose body has the parts `links`. -/
def operands (kind : FusedKind) (root : Call) (links : List (Part × Call)) : List Operand :=
  kind.places.filterMap (OperandPlace.operand? root links)

/-- The name of the kernel. -/
def kernelName : FusedKind → String
  | dense => "nn.dense"
  | qnnDense => "qnn.dense"
  | conv2d => "nn.conv2d"
  | qnnConv2d => "qnn.conv2d"
  | qnnSoftmax => "qnn.softmax"
  | qnnSigmoid => "qnn.sigmoid"
  | qnnAvgPool2d => "qnn.avg_pool2d"
  | avgPool2d => "nn.avg_pool2d"
  | maxPool2d => "nn.max_pool2d"

end FusedKind

namespace Pattern

/-- The calls that were taken, with what each of them is to the body. -/
def links : Pattern → List (Part × Call)
  | convolution pad compute bias requantize =>
    requantize.toList.map (.rescaling, ·) ++ bias.toList.map (.bias, ·) ++
      (.compute, compute) :: pad.toList.map (.pad, ·)
  | dense compute bias requantize =>
    requantize.toList.map (.rescaling, ·) ++ bias.toList.map (.bias, ·) ++ [(.compute, compute)]
  | activation _ dequantize compute quantize =>
    [(.outer, quantize), (.compute, compute), (.inner, dequantize)]
  | avgPool preCast compute postCast =>
    [(.outer, postCast), (.compute, compute), (.inner, preCast)]
  | pool _ pad compute => (.compute, compute) :: pad.toList.map (.pad, ·)

theorem map_snd_links (p : Pattern) : p.links.map (·.2) = p.calls := by
  cases p <;> simp [links, calls, Function.comp_def]

theorem lookup_compute (p : Pattern) : p.links.lookup .compute = some p.compute := by
  rcases p with ⟨pad, compute, _ | bias, _ | requantize⟩ | ⟨compute, _ | bias, _ | requantize⟩ |
    ⟨which, dequantize, compute, quantize⟩ | ⟨preCast, compute, postCast⟩ |
    ⟨which, pad, compute⟩ <;> rfl

theorem lookup_pad (p : Pattern) : p.links.lookup .pad = p.pad? := by
  rcases p with ⟨_ | pad, compute, _ | bias, _ | requantize⟩ | ⟨compute, _ | bias, _ | requantize⟩ |
    ⟨which, dequantize, compute, quantize⟩ | ⟨preCast, compute, postCast⟩ |
    ⟨which, _ | pad, compute⟩ <;> rfl

theorem family_kind (p : Pattern) : p.kind.family = p.family := by
  rcases p with ⟨pad, compute, bias, _ | requantize⟩ | ⟨compute, bias, _ | requantize⟩ |
    ⟨_ | _, dequantize, compute, quantize⟩ | ⟨preCast, compute, postCast⟩ |
    ⟨_ | _, pad, compute⟩ <;> rfl

theorem kernelName_kind (p : Pattern) : p.kind.kernelName = p.kernelName := by
  rcases p with ⟨pad, compute, bias, _ | requantize⟩ | ⟨compute, bias, _ | requantize⟩ |
    ⟨_ | _, dequantize, compute, quantize⟩ | ⟨preCast, compute, postCast⟩ |
    ⟨_ | _, pad, compute⟩ <;> rfl

/-- The operands of a pattern are those that its kind promises. -/
theorem operands_eq (p : Pattern) (root : Call) :
    p.operands root = p.kind.operands root p.links := by
  rcases p with ⟨_ | pad, compute, _ | bias, _ | requantize⟩ | ⟨compute, _ | bias, _ | requantize⟩ |
    ⟨_ | _, dequantize, compute, quantize⟩ | ⟨preCast, compute, postCast⟩ |
    ⟨_ | _, pad, compute⟩ <;> rfl

end Pattern

/-! ### Patterns are what fills the slots -/

theorem Call.isOp_iff {c : Call} {op : Operator} : c.isOp op ↔ c.callee = .op op.name := by
  unfold isOp opName?
  cases c.callee <;> simp

theorem Slot.accepts_iff {slot : Slot} {c : Call} : slot.Accepts c ↔ slot.ops.any c.isOp := by
  simp [Accepts, Call.isOp_iff, List.any_eq_true]

/-- A call that is of one operator is of no other. -/
theorem Slot.not_accepts {slot : Slot} {c : Call} {op : Operator} (hc : c.isOp op)
    (hop : op ∉ slot.ops) : ¬slot.Accepts c := by
  rintro ⟨op', hop', heq⟩
  rw [Call.isOp_iff, heq] at hc
  exact hop (Operator.name_injective (Callee.op.inj hc) ▸ hop')

theorem takeIf_eq_some_iff {ops : List Operator} {chain rest : List Call} {c : Call} :
    takeIf ops chain = (some c, rest) ↔ chain = c :: rest ∧ ops.any c.isOp := by
  cases chain with
  | nil => simp [takeIf]
  | cons d chain =>
      rw [takeIf]
      split
      · rename_i hd
        constructor
        · intro h
          cases h
          exact ⟨rfl, hd⟩
        · rintro ⟨h, -⟩
          cases h
          rfl
      · rename_i hd
        constructor
        · intro h
          cases h
        · rintro ⟨h, hc⟩
          cases h
          exact absurd hc hd

theorem takeIf_eq_none_iff {ops : List Operator} {chain rest : List Call} :
    takeIf ops chain = (none, rest) ↔ chain = rest ∧ ∀ c ∈ chain.head?, ¬ops.any c.isOp := by
  cases chain with
  | nil => simp [takeIf]
  | cons d chain =>
      rw [takeIf]
      split
      · rename_i hd
        constructor
        · intro h
          cases h
        · rintro ⟨-, hnone⟩
          exact absurd hd (hnone d rfl)
      · rename_i hd
        constructor
        · intro h
          cases h
          refine ⟨rfl, fun c hc => ?_⟩
          cases hc
          exact hd
        · rintro ⟨rfl, -⟩
          rfl

theorem expectOp_eq_ok_iff {family : Family} {op : Operator} {chain rest : List Call} {c : Call} :
    expectOp family op chain = .ok (c, rest) ↔ chain = c :: rest ∧ c.isOp op := by
  have htake : takeIf [op] chain = (some c, rest) ↔ chain = c :: rest ∧ c.isOp op := by
    rw [takeIf_eq_some_iff, List.any_cons, List.any_nil, Bool.or_false]
  rw [← htake, expectOp]
  split
  · rename_i heq
    simp [heq]
  · rename_i heq
    simp [heq]

theorem takeIf_of_expectOp {family : Family} {op : Operator} {chain rest : List Call} {c : Call}
    (h : expectOp family op chain = .ok (c, rest)) : takeIf [op] chain = (some c, rest) := by
  obtain ⟨rfl, hc⟩ := expectOp_eq_ok_iff.1 h
  rw [takeIf_eq_some_iff, List.any_cons, hc]
  exact ⟨rfl, rfl⟩

/-- An optional slot is filled by what can be taken. -/
theorem follows_optional {part : Part} {ops : List Operator} {slots : List Slot} {chain : List Call}
    {links : List (Part × Call)} :
    Follows (⟨part, ops, true⟩ :: slots) chain links ↔
      ∃ rest, Follows slots (takeIf ops chain).2 rest ∧
        links = (takeIf ops chain).1.toList.map (part, ·) ++ rest := by
  constructor
  · intro h
    cases h with
    | take hc h =>
        rw [takeIf_eq_some_iff.2 ⟨rfl, Slot.accepts_iff.1 hc⟩]
        exact ⟨_, h, rfl⟩
    | skip _ hnone h =>
        rw [takeIf_eq_none_iff.2 ⟨rfl, fun c hc => mt Slot.accepts_iff.2 (hnone c hc)⟩]
        exact ⟨_, h, rfl⟩
  · rintro ⟨rest, h, rfl⟩
    rcases htake : takeIf ops chain with ⟨_ | c, chain'⟩
    · rw [htake] at h
      obtain ⟨rfl, hnone⟩ := takeIf_eq_none_iff.1 htake
      exact .skip rfl (fun c hc => mt Slot.accepts_iff.1 (hnone c hc)) h
    · rw [htake] at h
      obtain ⟨rfl, hc⟩ := takeIf_eq_some_iff.1 htake
      exact .take (Slot.accepts_iff.2 hc) h

/-- A required slot is filled by what is expected. -/
theorem follows_required {part : Part} {op : Operator} {slots : List Slot} {chain : List Call}
    {links : List (Part × Call)} (family : Family) :
    Follows (⟨part, [op], false⟩ :: slots) chain links ↔
      ∃ c chain' rest, expectOp family op chain = .ok (c, chain') ∧ Follows slots chain' rest ∧
        links = (part, c) :: rest := by
  have haccepts : ∀ c, Slot.Accepts ⟨part, [op], false⟩ c ↔ c.isOp op := by
    intro c
    rw [Slot.accepts_iff, List.any_cons, List.any_nil, Bool.or_false]
  constructor
  · intro h
    cases h with
    | @take _ _ c chain' rest hc h =>
        exact ⟨c, chain', rest, expectOp_eq_ok_iff.2 ⟨rfl, (haccepts c).1 hc⟩, h, rfl⟩
    | skip hoptional => cases hoptional
  · rintro ⟨c, chain', rest, hexpect, h, rfl⟩
    obtain ⟨rfl, hc⟩ := expectOp_eq_ok_iff.1 hexpect
    exact .take ((haccepts c).2 hc) h

theorem follows_nil {chain : List Call} {links : List (Part × Call)} :
    Follows [] chain links ↔ links = [] := by
  constructor
  · intro h
    cases h
    rfl
  · rintro rfl
    exact .done chain

/-- The calls that fill slots are the first ones of the chain, with none left out. -/
theorem Follows.isPrefix {slots : List Slot} {chain : List Call} {links : List (Part × Call)}
    (h : Follows slots chain links) : links.map (·.2) <+: chain := by
  induction h with
  | done chain => exact List.nil_prefix
  | take _ _ ih => exact (List.prefix_cons_inj _).2 ih
  | skip _ _ _ ih => exact ih

/-- If a slot must be filled, the chain has a first call, which fits one of the slots. -/
theorem Follows.exists_head {slots : List Slot} {chain : List Call} {links : List (Part × Call)}
    (h : Follows slots chain links) (hrequired : ∃ slot ∈ slots, slot.optional = false) :
    ∃ c rest, chain = c :: rest ∧ ∃ slot ∈ slots, slot.Accepts c := by
  induction h with
  | done chain =>
      obtain ⟨slot, hslot, -⟩ := hrequired
      cases hslot
  | take hc _ _ => exact ⟨_, _, rfl, _, List.mem_cons_self, hc⟩
  | skip hoptional _ _ ih =>
      obtain ⟨slot, hslot, hfalse⟩ := hrequired
      rcases List.mem_cons.1 hslot with rfl | hslot
      · rw [hoptional] at hfalse
        cases hfalse
      · obtain ⟨c, rest, hchain, slot', hslot', hc⟩ := ih ⟨slot, hslot, hfalse⟩
        exact ⟨c, rest, hchain, slot', List.mem_cons_of_mem _ hslot', hc⟩

theorem FusedKind.exists_required (kind : FusedKind) :
    ∃ slot ∈ kind.slots, slot.optional = false := by
  cases kind <;> simp [slots]

/-- What a sequence has no slot for does not come first in a body. -/
theorem Follows.takeIf_eq {kind : FusedKind} {chain : List Call} {links : List (Part × Call)}
    (h : Follows kind.slots chain links) (op : Operator)
    (hop : ∀ slot ∈ kind.slots, op ∉ slot.ops) : takeIf [op] chain = (none, chain) := by
  obtain ⟨c, rest, rfl, slot, hslot, hc⟩ := h.exists_head kind.exists_required
  refine takeIf_eq_none_iff.2 ⟨rfl, fun d hd hisOp => ?_⟩
  cases hd
  rw [List.any_cons, List.any_nil, Bool.or_false] at hisOp
  exact Slot.not_accepts hisOp (hop slot hslot) hc

namespace Pattern

theorem follows_of_activation {which : Activation} {chain : List Call} {p : Pattern}
    (h : ofChain.ofActivation which chain = .ok p) :
    p.kind = which.kind ∧ Follows which.kind.slots chain p.links := by
  obtain ⟨⟨quantize, chain₁⟩, h₁, h⟩ := exists_of_bind_eq_ok h
  obtain ⟨⟨compute, chain₂⟩, h₂, h⟩ := exists_of_bind_eq_ok h
  obtain ⟨⟨dequantize, chain₃⟩, h₃, h⟩ := exists_of_bind_eq_ok h
  cases h
  have hinner : Follows [⟨.inner, [.dequantize], false⟩] chain₂ [(.inner, dequantize)] :=
    (follows_required which.family).2 ⟨dequantize, chain₃, [], h₃, .done _, rfl⟩
  refine ⟨rfl, ?_⟩
  cases which with
  | softmax =>
      exact (follows_required _).2 ⟨quantize, chain₁, _, h₁,
        (follows_required _).2 ⟨compute, chain₂, _, h₂, hinner, rfl⟩, rfl⟩
  | sigmoid =>
      exact (follows_required _).2 ⟨quantize, chain₁, _, h₁,
        (follows_required _).2 ⟨compute, chain₂, _, h₂, hinner, rfl⟩, rfl⟩

/-- The calls that a family takes fill the slots of the kind that it found. -/
theorem follows_of_chain {family : Family} {chain : List Call} {p : Pattern}
    (h : ofChain family chain = .ok p) : Follows p.kind.slots chain p.links := by
  cases family with
  | convolution =>
      simp only [ofChain] at h
      obtain ⟨⟨compute, rest⟩, hcompute, h⟩ := exists_of_bind_eq_ok h
      cases h
      have hpad : Follows [⟨.pad, [.pad], true⟩] rest
          ((takeIf [.pad] rest).1.toList.map (.pad, ·)) :=
        follows_optional.2 ⟨[], .done _, (List.append_nil _).symm⟩
      rcases htake : takeIf [.requantize] chain with ⟨_ | requantize, chain₁⟩
      · rw [htake] at hcompute
        obtain rfl := takeIf_none htake
        exact follows_optional.2 ⟨_, (follows_required .convolution).2
          ⟨compute, rest, _, hcompute, hpad, rfl⟩, rfl⟩
      · rw [htake] at hcompute
        obtain ⟨rfl, hrequantize⟩ := takeIf_eq_some_iff.1 htake
        exact .take (Slot.accepts_iff.2 hrequantize) (follows_optional.2 ⟨_,
          (follows_required .convolution).2 ⟨compute, rest, _, hcompute, hpad, rfl⟩, rfl⟩)
  | dense =>
      simp only [ofChain] at h
      obtain ⟨⟨compute, rest⟩, hcompute, h⟩ := exists_of_bind_eq_ok h
      cases h
      rcases htake : takeIf [.requantize] chain with ⟨_ | requantize, chain₁⟩
      · rw [htake] at hcompute
        obtain rfl := takeIf_none htake
        exact follows_optional.2 ⟨_, (follows_required .dense).2
          ⟨compute, rest, _, hcompute, .done _, rfl⟩, rfl⟩
      · rw [htake] at hcompute
        obtain ⟨rfl, hrequantize⟩ := takeIf_eq_some_iff.1 htake
        exact .take (Slot.accepts_iff.2 hrequantize) (follows_optional.2 ⟨_,
          (follows_required .dense).2 ⟨compute, rest, _, hcompute, .done _, rfl⟩, rfl⟩)
  | qnnSoftmax =>
      obtain ⟨hkind, h⟩ := follows_of_activation h
      exact hkind ▸ h
  | qnnSigmoid =>
      obtain ⟨hkind, h⟩ := follows_of_activation h
      exact hkind ▸ h
  | qnnAvgPool =>
      obtain ⟨⟨postCast, chain₁⟩, h₁, h⟩ := exists_of_bind_eq_ok h
      obtain ⟨⟨compute, chain₂⟩, h₂, h⟩ := exists_of_bind_eq_ok h
      obtain ⟨⟨preCast, chain₃⟩, h₃, h⟩ := exists_of_bind_eq_ok h
      cases h
      exact (follows_required _).2 ⟨postCast, chain₁, _, h₁, (follows_required _).2
        ⟨compute, chain₂, _, h₂,
          (follows_required _).2 ⟨preCast, chain₃, [], h₃, .done _, rfl⟩, rfl⟩, rfl⟩
  | pool =>
      have hpool : ∀ {op : Operator} {compute : Call} {rest : List Call},
          takeIf [op] chain = (some compute, rest) →
          Follows [⟨.compute, [op], false⟩, ⟨.pad, [.pad], true⟩] chain
            ((.compute, compute) :: (takeIf [.pad] rest).1.toList.map (.pad, ·)) := by
        intro op compute rest htake
        obtain ⟨rfl, hcompute⟩ := takeIf_eq_some_iff.1 htake
        exact .take (Slot.accepts_iff.2 hcompute)
          (follows_optional.2 ⟨[], .done _, (List.append_nil _).symm⟩)
      simp only [ofChain] at h
      split at h
      · rename_i compute rest htake
        cases h
        exact hpool htake
      · rename_i compute rest htake _
        cases h
        exact hpool htake
      · cases h

theorem activation_of_follows {which : Activation} {chain : List Call} {links : List (Part × Call)}
    (h : Follows [⟨.outer, [.quantize], false⟩, ⟨.compute, [which.operator], false⟩,
      ⟨.inner, [.dequantize], false⟩] chain links) :
    ∃ p, ofChain.ofActivation which chain = .ok p ∧ p.kind = which.kind ∧ p.links = links := by
  obtain ⟨quantize, chain₁, _, h₁, hrest, rfl⟩ := (follows_required which.family).1 h
  obtain ⟨compute, chain₂, _, h₂, hinner, rfl⟩ := (follows_required which.family).1 hrest
  obtain ⟨dequantize, chain₃, _, h₃, hend, rfl⟩ := (follows_required which.family).1 hinner
  obtain rfl := follows_nil.1 hend
  refine ⟨.activation which dequantize compute quantize, ?_, rfl, rfl⟩
  simp [ofChain.ofActivation, h₁, h₂, h₃, bind, Except.bind]

theorem pad_of_follows {chain : List Call} {links : List (Part × Call)}
    (h : Follows [⟨.pad, [.pad], true⟩] chain links) :
    links = (takeIf [.pad] chain).1.toList.map (.pad, ·) := by
  obtain ⟨_, hend, rfl⟩ := follows_optional.1 h
  obtain rfl := follows_nil.1 hend
  exact List.append_nil _

/-- Calls that fill the slots of a kind are what its family takes. -/
theorem chain_of_follows {kind : FusedKind} {chain : List Call} {links : List (Part × Call)}
    (h : Follows kind.slots chain links) :
    ∃ p, ofChain kind.family chain = .ok p ∧ p.kind = kind ∧ p.links = links := by
  cases kind with
  | dense =>
      obtain ⟨_, hbody, rfl⟩ := follows_optional.1 h
      obtain ⟨compute, rest, _, hcompute, hend, rfl⟩ := (follows_required .dense).1 hbody
      obtain rfl := follows_nil.1 hend
      refine ⟨.dense compute (takeIf [.biasAdd, .add] chain).1 none, ?_, rfl, rfl⟩
      simp [ofChain, FusedKind.family, h.takeIf_eq .requantize (by decide), hcompute, bind,
        Except.bind]
  | qnnDense =>
      obtain ⟨requantize, chain₁, _, hrequantize, hrest, rfl⟩ := (follows_required .dense).1 h
      obtain ⟨_, hbody, rfl⟩ := follows_optional.1 hrest
      obtain ⟨compute, rest, _, hcompute, hend, rfl⟩ := (follows_required .dense).1 hbody
      obtain rfl := follows_nil.1 hend
      refine ⟨.dense compute (takeIf [.biasAdd, .add] chain₁).1 (some requantize), ?_, rfl, rfl⟩
      simp [ofChain, FusedKind.family, takeIf_of_expectOp hrequantize, hcompute, bind, Except.bind]
  | conv2d =>
      obtain ⟨_, hbody, rfl⟩ := follows_optional.1 h
      obtain ⟨compute, rest, _, hcompute, hpad, rfl⟩ := (follows_required .convolution).1 hbody
      obtain rfl := pad_of_follows hpad
      refine ⟨.convolution (takeIf [.pad] rest).1 compute (takeIf [.biasAdd, .add] chain).1 none,
        ?_, rfl, rfl⟩
      simp [ofChain, FusedKind.family, h.takeIf_eq .requantize (by decide), hcompute, bind,
        Except.bind]
  | qnnConv2d =>
      obtain ⟨requantize, chain₁, _, hrequantize, hrest, rfl⟩ := (follows_required .convolution).1 h
      obtain ⟨_, hbody, rfl⟩ := follows_optional.1 hrest
      obtain ⟨compute, rest, _, hcompute, hpad, rfl⟩ := (follows_required .convolution).1 hbody
      obtain rfl := pad_of_follows hpad
      refine ⟨.convolution (takeIf [.pad] rest).1 compute (takeIf [.biasAdd, .add] chain₁).1
        (some requantize), ?_, rfl, rfl⟩
      simp [ofChain, FusedKind.family, takeIf_of_expectOp hrequantize, hcompute, bind, Except.bind]
  | qnnSoftmax => exact activation_of_follows h
  | qnnSigmoid => exact activation_of_follows h
  | qnnAvgPool2d =>
      obtain ⟨postCast, chain₁, _, h₁, hrest, rfl⟩ := (follows_required .qnnAvgPool).1 h
      obtain ⟨compute, chain₂, _, h₂, hinner, rfl⟩ := (follows_required .qnnAvgPool).1 hrest
      obtain ⟨preCast, chain₃, _, h₃, hend, rfl⟩ := (follows_required .qnnAvgPool).1 hinner
      obtain rfl := follows_nil.1 hend
      refine ⟨.avgPool preCast compute postCast, ?_, rfl, rfl⟩
      simp [ofChain, FusedKind.family, h₁, h₂, h₃, bind, Except.bind]
  | avgPool2d =>
      obtain ⟨compute, rest, _, hcompute, hpad, rfl⟩ := (follows_required .pool).1 h
      obtain rfl := pad_of_follows hpad
      refine ⟨.pool .average (takeIf [.pad] rest).1 compute, ?_, rfl, rfl⟩
      simp [ofChain, FusedKind.family, takeIf_of_expectOp hcompute]
  | maxPool2d =>
      obtain ⟨compute, rest, _, hcompute, hpad, rfl⟩ := (follows_required .pool).1 h
      obtain rfl := pad_of_follows hpad
      refine ⟨.pool .maximum (takeIf [.pad] rest).1 compute, ?_, rfl, rfl⟩
      simp [ofChain, FusedKind.family, h.takeIf_eq .avgPool2d (by decide),
        takeIf_of_expectOp hcompute]

/-- A call of a fused function has a pattern of the kind that the function declares exactly if its
body starts with the calls that the kind promises. Then these are the calls of the pattern. -/
theorem ofKind_iff_follows {kind : FusedKind} {callee : Expr} {f : Function} {args : List Expr}
    {attrs : Attributes} (hf : callee.function? = some f) {links : List (Part × Call)} :
    (∃ p, ofKind kind ⟨.expr callee, args, attrs⟩ = .ok p ∧ p.links = links) ↔
      Follows kind.slots f.body.chain links := by
  constructor
  · rintro ⟨p, hp, rfl⟩
    obtain ⟨hcall, rfl⟩ := ofCall_of_ofKind hp
    obtain ⟨chain, hchain, h⟩ := exists_of_bind_eq_ok hcall
    obtain ⟨f', hf', -, rfl⟩ := chainOf_eq_ok_iff.1 hchain
    obtain rfl : f' = f := Option.some.inj (hf'.symm.trans hf)
    exact follows_of_chain h
  · intro h
    obtain ⟨p, hp, rfl, rfl⟩ := chain_of_follows h
    refine ⟨p, ?_, rfl⟩
    have hchain : chainOf p.kind.family ⟨.expr callee, args, attrs⟩ = .ok f.body.chain := by
      obtain ⟨c, rest, hchain, -⟩ := h.exists_head p.kind.exists_required
      refine chainOf_eq_ok_iff.2 ⟨f, hf, ?_, rfl⟩
      rw [← Expr.head?_chain, hchain]
      rfl
    rw [ofKind, ofCall, hchain]
    show (ofChain p.kind.family f.body.chain >>= _) = _
    rw [hp]
    exact if_pos rfl

end Pattern

end KernelGraph
