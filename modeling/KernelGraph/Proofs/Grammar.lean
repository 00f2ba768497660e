import KernelGraph.Proofs.Contract
import Mathlib.Computability.RegularExpressions

/-!
The bodies that each family accepts, as a grammar over operators, and what it means for a chain of
calls to open with a word of it.

A family whose body may start with a requantize expects another operator behind it, so its slots
depend on how the chain starts. Once that is known the slots spell the words of the grammar
(`Family.mem_grammar_iff`), and since what fits an optional slot fits no later one, a walk that does
not look ahead takes the longest word (`Follows.length_le`) or stops where the longest beginning of
a word ends (`Stops.length_le`).
-/

namespace KernelGraph

open RegularExpression (char)

/-- The bodies of a family, from the output to the input. -/
def Family.grammar : Family → RegularExpression Operator
  | convolution =>
    (char .requantize * (1 + (char .biasAdd + char .add)) * char .qnnConv2d
      + (1 + (char .biasAdd + char .add)) * char .conv2d) * (1 + char .pad)
  | dense =>
    char .requantize * (1 + (char .biasAdd + char .add)) * char .qnnDense
      + (1 + (char .biasAdd + char .add)) * char .dense
  | qnnSoftmax => char .quantize * char .softmax * char .dequantize
  | qnnSigmoid => char .quantize * char .sigmoid * char .dequantize
  | qnnAvgPool => char .cast * char .avgPool2d * char .cast
  | pool => (char .avgPool2d + char .maxPool2d) * (1 + char .pad)

/-- A word that a body of the family may begin with. -/
def Family.Viable (family : Family) (v : List Operator) : Prop :=
  ∃ w ∈ family.grammar.matches', v <+: w

/-- What must come next, as a message names it, once the operators `taken` are there. -/
def Family.required (taken : List Operator) : Family → Link
  | convolution => .call (if .requantize ∈ taken then Operator.qnnConv2d else .conv2d).name
  | dense => .call (if .requantize ∈ taken then Operator.qnnDense else .dense).name
  | qnnSoftmax => .call ([Operator.quantize, .softmax].getD taken.length .dequantize).name
  | qnnSigmoid => .call ([Operator.quantize, .sigmoid].getD taken.length .dequantize).name
  | qnnAvgPool => .call ([Operator.cast, .avgPool2d].getD taken.length .cast).name
  | pool => .either .avgPool2d .maxPool2d

/-- The operators of a word are those of the first calls of a chain. -/
def Opens (w : List Operator) (chain : List Call) : Prop :=
  w.map (fun op => some op.name) <+: chain.map Call.opName?

/-- Whether a chain starts with a requantize. -/
def rescales (chain : List Call) : Bool := chain.head?.any (·.isOp .requantize)

@[simp]
theorem rescales_cons (c : Call) (chain : List Call) :
    rescales (c :: chain) = c.isOp .requantize :=
  rfl

/-- The slots of a family, in a body that starts with a requantize or in one that does not. -/
def Family.slots (rescaled : Bool) : Family → List Slot
  | convolution =>
    [⟨.rescaling, [.requantize], true⟩, ⟨.bias, [.biasAdd, .add], true⟩,
      ⟨.compute, [if rescaled then .qnnConv2d else .conv2d], false⟩, ⟨.pad, [.pad], true⟩]
  | dense =>
    [⟨.rescaling, [.requantize], true⟩, ⟨.bias, [.biasAdd, .add], true⟩,
      ⟨.compute, [if rescaled then .qnnDense else .dense], false⟩]
  | qnnSoftmax => FusedKind.qnnSoftmax.slots
  | qnnSigmoid => FusedKind.qnnSigmoid.slots
  | qnnAvgPool => FusedKind.qnnAvgPool2d.slots
  | pool => [⟨.compute, [.avgPool2d, .maxPool2d], false⟩, ⟨.pad, [.pad], true⟩]

/-! ### Words of slots -/

/-- The words that can be made of one operator for each slot, where optional slots may be left. -/
inductive Spells : List Slot → List Operator → Prop
  | done : Spells [] []
  | fill {slot : Slot} {slots : List Slot} {op : Operator} {w : List Operator} :
      op ∈ slot.ops → Spells slots w → Spells (slot :: slots) (op :: w)
  | leave {slot : Slot} {slots : List Slot} {w : List Operator} :
      slot.optional = true → Spells slots w → Spells (slot :: slots) w

theorem spells_nil_iff {w : List Operator} : Spells [] w ↔ w = [] := by
  constructor
  · intro h
    cases h
    rfl
  · rintro rfl
    exact .done

theorem spells_cons_iff {slot : Slot} {slots : List Slot} {w : List Operator} :
    Spells (slot :: slots) w ↔
      (∃ op ∈ slot.ops, ∃ v, Spells slots v ∧ w = op :: v) ∨
        slot.optional = true ∧ Spells slots w := by
  constructor
  · intro h
    cases h with
    | fill hop h => exact .inl ⟨_, hop, _, h, rfl⟩
    | leave hoptional h => exact .inr ⟨hoptional, h⟩
  · rintro (⟨op, hop, v, h, rfl⟩ | ⟨hoptional, h⟩)
    · exact .fill hop h
    · exact .leave hoptional h

/-- The first operator of a word fits one of the slots. -/
theorem Spells.exists_slot {slots : List Slot} {op : Operator} {w : List Operator}
    (h : Spells slots (op :: w)) : ∃ slot ∈ slots, op ∈ slot.ops := by
  generalize hv : op :: w = v at h
  induction h with
  | done => cases hv
  | fill hop _ _ =>
      cases hv
      exact ⟨_, List.mem_cons_self, hop⟩
  | leave _ _ ih =>
      obtain ⟨slot, hslot, hop⟩ := ih hv
      exact ⟨slot, List.mem_cons_of_mem _ hslot, hop⟩

theorem Spells.ne_nil {slots : List Slot} {w : List Operator} (h : Spells slots w)
    (hrequired : ∃ slot ∈ slots, slot.optional = false) : w ≠ [] := by
  induction h with
  | done =>
      obtain ⟨slot, hslot, -⟩ := hrequired
      cases hslot
  | fill => exact List.cons_ne_nil _ _
  | leave hoptional _ ih =>
      obtain ⟨slot, hslot, hfalse⟩ := hrequired
      rcases List.mem_cons.1 hslot with rfl | hslot
      · rw [hoptional] at hfalse
        cases hfalse
      · exact ih ⟨slot, hslot, hfalse⟩

theorem Spells.exists_word {slots : List Slot} (hops : ∀ slot ∈ slots, slot.ops ≠ []) :
    ∃ w, Spells slots w := by
  induction slots with
  | nil => exact ⟨[], .done⟩
  | cons slot slots ih =>
      obtain ⟨hslot, hslots⟩ := List.forall_mem_cons.1 hops
      obtain ⟨op, hop⟩ := List.exists_mem_of_ne_nil _ hslot
      obtain ⟨w, hw⟩ := ih hslots
      exact ⟨op :: w, .fill hop hw⟩

/-- What fits an optional slot fits no later one. -/
def Apart (slots : List Slot) : Prop :=
  slots.Pairwise fun a b => a.optional = true → ∀ op ∈ a.ops, op ∉ b.ops

/-- A word that starts with an operator of the first slot fills that slot. -/
theorem Spells.of_mem_ops {slot : Slot} {slots : List Slot} {op : Operator} {w : List Operator}
    (hapart : Apart (slot :: slots)) (hop : op ∈ slot.ops) (h : Spells (slot :: slots) (op :: w)) :
    Spells slots w := by
  cases h with
  | fill _ h => exact h
  | leave hoptional h =>
      obtain ⟨later, hlater, hmem⟩ := h.exists_slot
      exact absurd hmem ((List.pairwise_cons.1 hapart).1 later hlater hoptional op hop)

/-- A word that starts with no operator of the first slot leaves that slot. -/
theorem Spells.of_not_mem_ops {slot : Slot} {slots : List Slot} {w : List Operator}
    (hop : ∀ op ∈ w.head?, op ∉ slot.ops) (h : Spells (slot :: slots) w) : Spells slots w := by
  cases h with
  | fill hmem _ => exact absurd hmem (hop _ rfl)
  | leave _ h => exact h

/-! ### Words that open a chain -/

theorem opens_nil (chain : List Call) : Opens [] chain := List.nil_prefix

theorem opens_cons_iff {op : Operator} {w : List Operator} {chain : List Call} :
    Opens (op :: w) chain ↔ ∃ c rest, chain = c :: rest ∧ c.isOp op ∧ Opens w rest := by
  cases chain with
  | nil => simp [Opens]
  | cons c chain => simp [Opens, Call.isOp, eq_comm, List.cons_prefix_cons]

theorem Call.isOp_unique {c : Call} {a b : Operator} (ha : c.isOp a) (hb : c.isOp b) : a = b := by
  rw [Call.isOp_iff] at ha hb
  exact Operator.name_injective (Callee.op.inj (ha.symm.trans hb))

theorem Slot.exists_isOp {slot : Slot} {c : Call} (h : slot.Accepts c) :
    ∃ op ∈ slot.ops, c.isOp op := by
  obtain ⟨op, hop, hc⟩ := h
  exact ⟨op, hop, Call.isOp_iff.2 hc⟩

/-- An operator that opens a chain fits no slot that refuses what comes first. -/
theorem Opens.not_mem_ops {op : Operator} {w : List Operator} {chain : List Call} {slot : Slot}
    (h : Opens (op :: w) chain) (hnone : ∀ c ∈ chain.head?, ¬slot.Accepts c) : op ∉ slot.ops := by
  intro hmem
  obtain ⟨c, _, rfl, hisOp, -⟩ := opens_cons_iff.1 h
  exact hnone c rfl ⟨op, hmem, Call.isOp_iff.1 hisOp⟩

/-- The calls that fill slots spell a word. -/
theorem Follows.exists_spells {slots : List Slot} {chain : List Call} {links : List (Part × Call)}
    (h : Follows slots chain links) :
    ∃ w, Spells slots w ∧ Opens w chain ∧ w.length = links.length := by
  induction h with
  | done chain => exact ⟨[], .done, opens_nil chain, rfl⟩
  | take hc _ ih =>
      obtain ⟨op, hop, hisOp⟩ := Slot.exists_isOp hc
      obtain ⟨w, hw, hopens, hlength⟩ := ih
      exact ⟨op :: w, .fill hop hw, opens_cons_iff.2 ⟨_, _, rfl, hisOp, hopens⟩,
        congrArg Nat.succ hlength⟩
  | skip hoptional _ _ ih =>
      obtain ⟨w, hw, hopens, hlength⟩ := ih
      exact ⟨w, .leave hoptional hw, hopens, hlength⟩

/-- No word that opens a chain is longer than what fills the slots. -/
theorem Follows.length_le {slots : List Slot} {chain : List Call} {links : List (Part × Call)}
    (h : Follows slots chain links) (hapart : Apart slots) {w : List Operator}
    (hw : Spells slots w) (hopens : Opens w chain) : w.length ≤ links.length := by
  induction h generalizing w with
  | done chain => rw [spells_nil_iff.1 hw, List.length_nil, List.length_nil]
  | take hc _ ih =>
      cases w with
      | nil => exact Nat.zero_le _
      | cons op w =>
          obtain ⟨_, _, hchain, hisOp, hrest⟩ := opens_cons_iff.1 hopens
          cases hchain
          obtain ⟨op', hop', hisOp'⟩ := Slot.exists_isOp hc
          obtain rfl := Call.isOp_unique hisOp' hisOp
          exact Nat.succ_le_succ
            (ih (List.pairwise_cons.1 hapart).2 (hw.of_mem_ops hapart hop') hrest)
  | skip _ hnone _ ih =>
      refine ih (List.pairwise_cons.1 hapart).2 (hw.of_not_mem_ops fun op hhead => ?_) hopens
      obtain ⟨v, rfl⟩ := List.head?_eq_some_iff.1 hhead
      exact hopens.not_mem_ops hnone

/-! ### Chains that stop short -/

/-- The walk along a chain takes calls of the operators `taken` and then stops at `slot`, which must
be filled, and is not by what comes next. -/
inductive Stops : List Slot → List Call → List Operator → Slot → Prop
  | here {slot : Slot} {slots : List Slot} {chain : List Call} :
      slot.optional = false → (∀ c ∈ chain.head?, ¬slot.Accepts c) →
      Stops (slot :: slots) chain [] slot
  | take {slot stop : Slot} {slots : List Slot} {op : Operator} {c : Call} {chain : List Call}
      {taken : List Operator} : op ∈ slot.ops → c.isOp op → Stops slots chain taken stop →
      Stops (slot :: slots) (c :: chain) (op :: taken) stop
  | skip {slot stop : Slot} {slots : List Slot} {chain : List Call} {taken : List Operator} :
      slot.optional = true → (∀ c ∈ chain.head?, ¬slot.Accepts c) → Stops slots chain taken stop →
      Stops (slot :: slots) chain taken stop

namespace Stops

theorem opens {slots : List Slot} {chain : List Call} {taken : List Operator} {stop : Slot}
    (h : Stops slots chain taken stop) : Opens taken chain := by
  induction h with
  | here => exact opens_nil _
  | take _ hisOp _ ih => exact opens_cons_iff.2 ⟨_, _, rfl, hisOp, ih⟩
  | skip _ _ _ ih => exact ih

/-- What was taken can be continued to a word. -/
theorem exists_spells {slots : List Slot} {chain : List Call} {taken : List Operator} {stop : Slot}
    (h : Stops slots chain taken stop) (hops : ∀ slot ∈ slots, slot.ops ≠ []) :
    ∃ w, Spells slots w ∧ taken <+: w := by
  induction h with
  | here =>
      obtain ⟨w, hw⟩ := Spells.exists_word hops
      exact ⟨w, hw, List.nil_prefix⟩
  | take hop _ _ ih =>
      obtain ⟨w, hw, htaken⟩ := ih (List.forall_mem_cons.1 hops).2
      exact ⟨_, .fill hop hw, (List.prefix_cons_inj _).2 htaken⟩
  | skip hoptional _ _ ih =>
      obtain ⟨w, hw, htaken⟩ := ih (List.forall_mem_cons.1 hops).2
      exact ⟨w, .leave hoptional hw, htaken⟩

/-- A beginning of a word that opens the chain is no longer than what was taken, and is not the
whole word. -/
theorem length_le {slots : List Slot} {chain : List Call} {taken : List Operator} {stop : Slot}
    (h : Stops slots chain taken stop) (hapart : Apart slots) {v w : List Operator}
    (hw : Spells slots w) (hv : v <+: w) (hopens : Opens v chain) :
    v.length ≤ taken.length ∧ v.length < w.length := by
  induction h generalizing v w with
  | @here slot slots chain hrequired hnone =>
      cases hw with
      | @fill _ _ op w hop hw =>
          cases v with
          | nil => exact ⟨Nat.le_refl _, Nat.succ_pos _⟩
          | cons op' v =>
              obtain ⟨rfl, -⟩ := List.cons_prefix_cons.1 hv
              exact absurd hop (hopens.not_mem_ops hnone)
      | leave hoptional _ =>
          rw [hrequired] at hoptional
          cases hoptional
  | @take slot _ slots op c chain taken hop hisOp _ ih =>
      have hlater := (List.pairwise_cons.1 hapart).2
      cases v with
      | nil =>
          refine ⟨Nat.zero_le _, ?_⟩
          cases hw with
          | fill => exact Nat.succ_pos _
          | leave _ hw => exact (ih hlater hw List.nil_prefix (opens_nil _)).2
      | cons op' v =>
          obtain ⟨_, _, hchain, hisOp', hrest⟩ := opens_cons_iff.1 hopens
          cases hchain
          obtain rfl := Call.isOp_unique hisOp hisOp'
          obtain ⟨w', rfl⟩ : ∃ w', w = op :: w' := by
            obtain ⟨z, rfl⟩ := hv
            exact ⟨v ++ z, rfl⟩
          obtain ⟨hle, hlt⟩ :=
            ih hlater (hw.of_mem_ops hapart hop) (List.cons_prefix_cons.1 hv).2 hrest
          exact ⟨Nat.succ_le_succ hle, Nat.succ_lt_succ hlt⟩
  | @skip slot _ slots chain taken _ hnone _ ih =>
      have hlater := (List.pairwise_cons.1 hapart).2
      cases hw with
      | leave _ hw => exact ih hlater hw hv hopens
      | @fill _ _ op w hop hw =>
          cases v with
          | nil => exact ⟨Nat.zero_le _, Nat.succ_pos _⟩
          | cons op' v =>
              obtain ⟨rfl, -⟩ := List.cons_prefix_cons.1 hv
              exact absurd hop (hopens.not_mem_ops hnone)

end Stops

/-! ### The slots of a family -/

theorem Family.slots_apart (family : Family) (rescaled : Bool) :
    Apart (family.slots rescaled) := by
  unfold Apart
  cases family <;> cases rescaled <;> decide

theorem Family.exists_required (family : Family) (rescaled : Bool) :
    ∃ slot ∈ family.slots rescaled, slot.optional = false := by
  cases family <;> simp [slots, FusedKind.slots]

theorem Family.ops_ne_nil (family : Family) (rescaled : Bool) :
    ∀ slot ∈ family.slots rescaled, slot.ops ≠ [] := by
  cases family <;> simp [slots, FusedKind.slots]

/-! ### The grammar of a family -/

theorem mem_word_iff {op : Operator} {w : List Operator} :
    w ∈ ({[op]} : Language Operator) ↔ w = [op] :=
  Iff.rfl

theorem mem_word_mul_iff {op : Operator} {L : Language Operator} {w : List Operator} :
    w ∈ {[op]} * L ↔ ∃ v ∈ L, w = op :: v := by
  rw [Language.mem_mul]
  constructor
  · rintro ⟨_, rfl, v, hv, rfl⟩
    exact ⟨v, hv, rfl⟩
  · rintro ⟨v, hv, rfl⟩
    exact ⟨[op], rfl, v, hv, rfl⟩

section Slots

variable {slots : List Slot} {L : Language Operator} (hL : ∀ v, v ∈ L ↔ Spells slots v)
  {part : Part} {a b op : Operator} {w : List Operator}

include hL

/-- One operator that must be there. -/
theorem mem_required_iff :
    w ∈ {[op]} * L ↔ Spells (⟨part, [op], false⟩ :: slots) w := by
  simp [mem_word_mul_iff, spells_cons_iff, hL]

/-- One of two operators that must be there. -/
theorem mem_either_iff :
    w ∈ ({[a]} + {[b]}) * L ↔ Spells (⟨part, [a, b], false⟩ :: slots) w := by
  simp [add_mul, Language.mem_add, mem_word_mul_iff, spells_cons_iff, hL]

/-- One of two operators that may be there. -/
theorem mem_optional_iff :
    w ∈ (1 + ({[a]} + {[b]})) * L ↔ Spells (⟨part, [a, b], true⟩ :: slots) w := by
  simp [add_mul, Language.mem_add, mem_word_mul_iff, spells_cons_iff, hL, or_comm]

end Slots

theorem mem_last_iff {part : Part} {op : Operator} {w : List Operator} :
    w ∈ ({[op]} : Language Operator) ↔ Spells [⟨part, [op], false⟩] w := by
  simp [mem_word_iff, spells_cons_iff, spells_nil_iff]

theorem mem_pad_iff {w : List Operator} :
    w ∈ (1 + {[.pad]} : Language Operator) ↔ Spells [⟨.pad, [.pad], true⟩] w := by
  simp [Language.mem_add, mem_word_iff, spells_cons_iff, spells_nil_iff, or_comm]

/-- A word of the slots after a requantize starts with none itself. -/
theorem not_spells_requantize {op : Operator} (hop : op ≠ .requantize) {slots : List Slot}
    {v : List Operator} :
    ¬Spells (⟨.bias, [.biasAdd, .add], true⟩ :: ⟨.compute, [op], false⟩ :: slots)
      (.requantize :: v) := by
  intro h
  cases h with
  | fill hmem _ => exact absurd hmem (by decide)
  | leave _ h =>
      cases h with
      | fill hmem _ => exact hop (List.mem_singleton.1 hmem).symm
      | leave hoptional _ => cases hoptional

/-- A requantize, if there is one, tells which operator must come. -/
theorem mem_rescaling_iff {quantized plain : Operator} (hquantized : quantized ≠ .requantize)
    (hplain : plain ≠ .requantize) {slots : List Slot} {L : Language Operator}
    (hL : ∀ v, v ∈ L ↔ Spells slots v) {w : List Operator} :
    w ∈ ({[.requantize]} * (1 + ({[.biasAdd]} + {[.add]})) * {[quantized]}
        + (1 + ({[.biasAdd]} + {[.add]})) * {[plain]}) * L ↔
      Spells (⟨.rescaling, [.requantize], true⟩ :: ⟨.bias, [.biasAdd, .add], true⟩ ::
        ⟨.compute, [if w.head? = some .requantize then quantized else plain], false⟩ :: slots)
        w := by
  have hrest : ∀ op v, v ∈ (1 + ({[.biasAdd]} + {[.add]})) * ({[op]} * L) ↔
      Spells (⟨.bias, [.biasAdd, .add], true⟩ :: ⟨.compute, [op], false⟩ :: slots) v :=
    fun op v => mem_optional_iff fun v => mem_required_iff hL
  rw [add_mul, Language.mem_add, mul_assoc, mul_assoc, mul_assoc, mem_word_mul_iff, hrest]
  by_cases hhead : w.head? = some .requantize
  · obtain ⟨v, rfl⟩ := List.head?_eq_some_iff.1 hhead
    rw [if_pos hhead]
    constructor
    · rintro (⟨v', hv', heq⟩ | h)
      · cases heq
        exact .fill (List.mem_singleton.2 rfl) ((hrest _ _).1 hv')
      · exact absurd h (not_spells_requantize hplain)
    · intro h
      cases h with
      | fill _ h => exact .inl ⟨v, (hrest _ _).2 h, rfl⟩
      | leave _ h => exact absurd h (not_spells_requantize hquantized)
  · rw [if_neg hhead]
    constructor
    · rintro (⟨v, -, rfl⟩ | h)
      · exact absurd rfl hhead
      · exact .leave rfl h
    · intro h
      refine .inr (h.of_not_mem_ops fun op hop hmem => hhead ?_)
      rw [← List.mem_singleton.1 hmem]
      exact hop

theorem mem_three_iff {first second third : Operator} {w : List Operator} :
    w ∈ ({[first]} * {[second]} * {[third]} : Language Operator) ↔
      Spells [⟨.outer, [first], false⟩, ⟨.compute, [second], false⟩, ⟨.inner, [third], false⟩]
        w := by
  rw [mul_assoc]
  exact mem_required_iff fun v => mem_required_iff fun v => mem_last_iff

/-- The words of the grammar are those of the slots. -/
theorem Family.mem_grammar_iff {family : Family} {w : List Operator} :
    w ∈ family.grammar.matches' ↔
      Spells (family.slots (decide (w.head? = some .requantize))) w := by
  cases family with
  | convolution =>
      simp only [slots, decide_eq_true_eq]
      exact mem_rescaling_iff (by decide) (by decide) fun v => mem_pad_iff
  | dense =>
      simp only [slots, decide_eq_true_eq]
      rw [← mul_one (Family.dense.grammar.matches')]
      exact mem_rescaling_iff (by decide) (by decide) fun v =>
        (Language.mem_one v).trans spells_nil_iff.symm
  | qnnSoftmax | qnnSigmoid | qnnAvgPool => exact mem_three_iff
  | pool => exact mem_either_iff fun v => mem_pad_iff

example : Family.convolution.grammar.rmatch [.requantize, .add, .qnnConv2d, .pad] = true := by
  decide

example : Family.convolution.grammar.rmatch [.requantize, .add, .conv2d] = false := by
  decide

/-- Two words that open one chain with a call agree on whether they start with a requantize. -/
theorem rescales_eq {op : Operator} {w : List Operator} {chain : List Call}
    (h : Opens (op :: w) chain) :
    rescales chain = decide ((op :: w).head? = some .requantize) := by
  obtain ⟨c, rest, rfl, hisOp, -⟩ := opens_cons_iff.1 h
  by_cases hop : op = .requantize
  · rw [hop] at hisOp
    simp [rescales, hop, hisOp]
  · have hnot : ¬c.isOp .requantize := fun hc => hop (Call.isOp_unique hisOp hc)
    simp [rescales, hop, hnot]

/-- The slots of a chain spell the words that begin as the chain does, and no others that do. -/
theorem Family.mem_grammar_iff_spells {family : Family} {v w : List Operator} {chain : List Call}
    (hv : v <+: w) (hne : v ≠ []) (hopens : Opens v chain) :
    w ∈ family.grammar.matches' ↔ Spells (family.slots (rescales chain)) w := by
  cases v with
  | nil => exact absurd rfl hne
  | cons op v =>
      obtain ⟨z, rfl⟩ := hv
      rw [rescales_eq hopens]
      exact mem_grammar_iff

theorem Family.ne_nil_of_mem {family : Family} {w : List Operator}
    (hw : w ∈ family.grammar.matches') : w ≠ [] :=
  (mem_grammar_iff.1 hw).ne_nil (family.exists_required _)

theorem Family.viable_nil (family : Family) : family.Viable [] := by
  have hword : ∀ w, family.grammar.rmatch w = true → family.Viable [] := fun w h =>
    ⟨w, (RegularExpression.rmatch_iff_matches' _ _).1 h, List.nil_prefix⟩
  cases family with
  | convolution => exact hword [.conv2d] (by decide)
  | dense => exact hword [.dense] (by decide)
  | qnnSoftmax => exact hword [.quantize, .softmax, .dequantize] (by decide)
  | qnnSigmoid => exact hword [.quantize, .sigmoid, .dequantize] (by decide)
  | qnnAvgPool => exact hword [.cast, .avgPool2d, .cast] (by decide)
  | pool => exact hword [.avgPool2d] (by decide)

/-! ### What fills a slot -/

/-- The call at a place of a chain, if the slot accepts it. -/
def Slot.callAt? (slot : Slot) (chain : List Call) (place : Nat) : Option Call :=
  chain[place]?.filter fun c => slot.ops.any c.isOp

theorem Slot.callAt?_zero_of_accepts (slot : Slot) {c : Call} (hc : slot.Accepts c)
    (chain : List Call) : slot.callAt? (c :: chain) 0 = some c := by
  rw [callAt?, List.getElem?_cons_zero, Option.filter_some, if_pos (Slot.accepts_iff.1 hc)]

theorem Slot.callAt?_zero_of_not_accepts (slot : Slot) {chain : List Call}
    (hnone : ∀ c ∈ chain.head?, ¬slot.Accepts c) : slot.callAt? chain 0 = none := by
  cases chain with
  | nil => rfl
  | cons c chain =>
      rw [callAt?, List.getElem?_cons_zero, Option.filter_some,
        if_neg (mt Slot.accepts_iff.2 (hnone c rfl))]

theorem Follows.lookup_eq_none {slots : List Slot} {chain : List Call} {links : List (Part × Call)}
    (h : Follows slots chain links) {part : Part} (hpart : part ∉ slots.map Slot.part) :
    links.lookup part = none := by
  induction h with
  | done => rfl
  | take _ _ ih =>
      rw [List.map_cons, List.mem_cons, not_or] at hpart
      rw [List.lookup_cons, beq_false_of_ne hpart.1]
      exact ih hpart.2
  | skip _ _ _ ih =>
      rw [List.map_cons, List.mem_cons, not_or] at hpart
      exact ih hpart.2

/-- A slot holds the call at its place, which the slots before it determine, if that call fits. -/
theorem Follows.lookup_eq {slots : List Slot} {chain : List Call} {links : List (Part × Call)}
    (h : Follows slots chain links) (hparts : (slots.map Slot.part).Nodup)
    {before after : List Slot} {slot : Slot} (hslots : slots = before ++ slot :: after) :
    links.lookup slot.part =
      slot.callAt? chain (before.filterMap fun s => links.lookup s.part).length := by
  induction h generalizing before with
  | done => simp at hslots
  | @take first slots c chain links hc hrest ih =>
      rw [List.map_cons, List.nodup_cons] at hparts
      cases before with
      | nil =>
          obtain ⟨rfl, rfl⟩ := List.cons.inj hslots
          rw [List.lookup_cons_self]
          exact (first.callAt?_zero_of_accepts hc chain).symm
      | cons b before =>
          obtain ⟨rfl, rfl⟩ := List.cons.inj hslots
          have hlookup : ∀ s ∈ before ++ slot :: after,
              ((first.part, c) :: links).lookup s.part = links.lookup s.part := by
            intro s hs
            have hne : s.part ≠ first.part := fun heq =>
              hparts.1 (heq ▸ List.mem_map_of_mem hs)
            rw [List.lookup_cons, beq_false_of_ne hne]
          rw [hlookup slot (List.mem_append_right _ List.mem_cons_self), ih hparts.2 rfl,
            List.filterMap_cons, List.lookup_cons_self,
            List.filterMap_congr fun s hs => hlookup s (List.mem_append_left _ hs)]
          rfl
  | @skip first slots chain links hoptional hnone hrest ih =>
      rw [List.map_cons, List.nodup_cons] at hparts
      have hfirst : links.lookup first.part = none := hrest.lookup_eq_none hparts.1
      cases before with
      | nil =>
          obtain ⟨rfl, rfl⟩ := List.cons.inj hslots
          rw [hfirst]
          exact (first.callAt?_zero_of_not_accepts hnone).symm
      | cons b before =>
          obtain ⟨rfl, rfl⟩ := List.cons.inj hslots
          rw [ih hparts.2 rfl, List.filterMap_cons, hfirst]

theorem Family.nodup_parts (family : Family) (rescaled : Bool) :
    ((family.slots rescaled).map Slot.part).Nodup := by
  cases family <;> cases rescaled <;> decide

/-- The slots of a chain can be filled in one way only. -/
theorem Follows.unique {slots : List Slot} {chain : List Call} {links links' : List (Part × Call)}
    (h : Follows slots chain links) (h' : Follows slots chain links') : links = links' := by
  induction h generalizing links' with
  | done =>
      cases h'
      rfl
  | take hc _ ih =>
      cases h' with
      | take _ h' => rw [ih h']
      | skip _ hnone _ => exact absurd hc (hnone _ rfl)
  | skip _ hnone _ ih =>
      cases h' with
      | take hc _ => exact absurd hc (hnone _ rfl)
      | skip _ _ h' => exact ih h'

end KernelGraph
