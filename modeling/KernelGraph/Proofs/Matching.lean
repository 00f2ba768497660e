import KernelGraph.Proofs.Arena
import KernelGraph.Proofs.Grammar
import KernelGraph.Proofs.Operands

/-!
The walk of a family along the chain of a body takes the longest word of the grammar of the family
that the chain opens with. A chain that opens with no word is refused where the longest beginning of
a word ends, and what is blamed is the operator that must come next and what stands in its place
(`Pattern.ofCall_grammar`).
-/

namespace KernelGraph

/-! ### The walk of a family -/

/-- A slot that more calls fit is filled by what filled it before. -/
theorem Follows.widen {part : Part} {ops ops' : List Operator} {optional : Bool}
    {slots : List Slot} {chain : List Call} {links : List (Part × Call)}
    (h : Follows (⟨part, ops, false⟩ :: slots) chain links) (hops : ops ⊆ ops') :
    Follows (⟨part, ops', optional⟩ :: slots) chain links := by
  cases h with
  | take hc h =>
      obtain ⟨op, hop, hcallee⟩ := hc
      exact .take ⟨op, hops hop, hcallee⟩ h
  | skip hoptional => cases hoptional

/-- In a body with nothing to requantize, the slot for that stays empty. -/
theorem Follows.unscaled {kind : FusedKind} {chain : List Call} {links : List (Part × Call)}
    (h : Follows kind.slots chain links) (hkind : ∀ slot ∈ kind.slots, .requantize ∉ slot.ops) :
    rescales chain = false ∧
      Follows (⟨.rescaling, [.requantize], true⟩ :: kind.slots) chain links := by
  have htake := h.takeIf_eq .requantize hkind
  constructor
  · cases chain with
    | nil => rfl
    | cons c chain => simpa using (takeIf_eq_none_iff.1 htake).2 c rfl
  · refine follows_optional.2 ⟨links, ?_, ?_⟩
    · rwa [htake]
    · rw [htake]
      rfl

/-- A body whose slot for a requantize is filled starts with one. -/
theorem Follows.rescaled {slots : List Slot} {chain : List Call} {links : List (Part × Call)}
    (h : Follows (⟨.rescaling, [.requantize], false⟩ :: slots) chain links) :
    rescales chain = true ∧ Follows (⟨.rescaling, [.requantize], true⟩ :: slots) chain links := by
  refine ⟨?_, h.widen (List.Subset.refl _)⟩
  cases h with
  | take hc _ => simpa [Slot.accepts_iff] using hc
  | skip hoptional => cases hoptional

namespace Pattern

/-- What a family takes off a chain fills its slots. -/
theorem follows_slots {family : Family} {chain : List Call} {p : Pattern}
    (h : ofChain family chain = .ok p) : Follows (family.slots (rescales chain)) chain p.links := by
  have hfollows := follows_of_chain h
  obtain rfl := family_of_chain h
  rcases p with ⟨pad, compute, bias, _ | requantize⟩ | ⟨compute, bias, _ | requantize⟩ |
    ⟨_ | _, dequantize, compute, quantize⟩ | ⟨preCast, compute, postCast⟩ | ⟨_ | _, pad, compute⟩
  · have hconv : Follows FusedKind.conv2d.slots chain _ := hfollows
    obtain ⟨hchain, h⟩ := hconv.unscaled (by decide)
    rw [hchain]
    exact h
  · obtain ⟨hchain, h⟩ := Follows.rescaled hfollows
    rw [hchain]
    exact h
  · have hdense : Follows FusedKind.dense.slots chain _ := hfollows
    obtain ⟨hchain, h⟩ := hdense.unscaled (by decide)
    rw [hchain]
    exact h
  · obtain ⟨hchain, h⟩ := Follows.rescaled hfollows
    rw [hchain]
    exact h
  · exact hfollows
  · exact hfollows
  · exact hfollows
  · exact hfollows.widen (by decide)
  · exact hfollows.widen (by decide)

end Pattern

namespace Stops

theorem of_expectOp_eq_error {family : Family} {op : Operator} {chain : List Call}
    {err : LoweringError} (part : Part) (slots : List Slot)
    (h : expectOp family op chain = .error err) :
    Stops (⟨part, [op], false⟩ :: slots) chain [] ⟨part, [op], false⟩ := by
  refine .here rfl fun c hc haccepts => ?_
  obtain ⟨rest, rfl⟩ := List.head?_eq_some_iff.1 hc
  obtain ⟨op', hop', hisOp⟩ := Slot.exists_isOp haccepts
  obtain rfl := List.mem_singleton.1 hop'
  rw [expectOp_eq_ok_iff.2 ⟨rfl, hisOp⟩] at h
  cases h

theorem of_expectOp_eq_ok {family : Family} {op : Operator} {slots : List Slot}
    {chain rest : List Call} {c : Call} {taken : List Operator} {stop : Slot} (part : Part)
    (h : expectOp family op chain = .ok (c, rest)) (hrest : Stops slots rest taken stop) :
    Stops (⟨part, [op], false⟩ :: slots) chain (op :: taken) stop ∧
      chain.drop (op :: taken).length = rest.drop taken.length := by
  obtain ⟨rfl, hc⟩ := expectOp_eq_ok_iff.1 h
  exact ⟨.take (List.mem_singleton.2 rfl) hc hrest, rfl⟩

/-- An optional slot is passed with what can be taken. -/
theorem of_takeIf {ops : List Operator} {slots : List Slot} {chain : List Call}
    {taken : List Operator} {stop : Slot} (part : Part)
    (h : Stops slots (takeIf ops chain).2 taken stop) :
    ∃ first, (∀ op ∈ first, op ∈ ops) ∧
      Stops (⟨part, ops, true⟩ :: slots) chain (first ++ taken) stop ∧
      chain.drop (first ++ taken).length = (takeIf ops chain).2.drop taken.length := by
  rcases htake : takeIf ops chain with ⟨_ | c, rest⟩
  · rw [htake] at h
    obtain ⟨rfl, hnone⟩ := takeIf_eq_none_iff.1 htake
    exact ⟨[], List.forall_mem_nil _,
      .skip rfl (fun c hc => mt Slot.accepts_iff.1 (hnone c hc)) h, rfl⟩
  · rw [htake] at h
    obtain ⟨rfl, hc⟩ := takeIf_eq_some_iff.1 htake
    obtain ⟨op, hop, hisOp⟩ := List.any_eq_true.1 hc
    refine ⟨[op], ?_, .take hop hisOp h, rfl⟩
    intro op' hop'
    rwa [List.mem_singleton.1 hop']

end Stops

theorem firstLink_drop (chain : List Call) (n : Nat) :
    firstLink (chain.drop n) = chain[n]?.elim .nothing fun c => .call c.description := by
  rw [← List.head?_drop]
  cases chain.drop n <;> rfl

namespace Pattern

/-- The walk of a convolution or a dense layer stops at the call that must compute. -/
theorem stops_of_rescaling {family : Family} {quantized plain : Operator} {slots : List Slot}
    {chain : List Call} {err : LoweringError}
    (h : expectOp family (if (takeIf [.requantize] chain).1.isSome then quantized else plain)
      (takeIf [.biasAdd, .add] (takeIf [.requantize] chain).2).2 = .error err) :
    ∃ taken stop,
      Stops (⟨.rescaling, [.requantize], true⟩ :: ⟨.bias, [.biasAdd, .add], true⟩ ::
        ⟨.compute, [if rescales chain then quantized else plain], false⟩ :: slots)
        chain taken stop ∧
      err = .mismatch family (.call (if .requantize ∈ taken then quantized else plain).name)
        (firstLink (chain.drop taken.length)) := by
  have herr := expectOp_eq_error h
  obtain ⟨first, hfirst, hstops, hdrop⟩ :=
    Stops.of_takeIf .bias (Stops.of_expectOp_eq_error .compute slots h)
  have hplain : .requantize ∉ first ++ [] := by
    rw [List.append_nil]
    intro hmem
    simpa using hfirst _ hmem
  rcases htake : takeIf [.requantize] chain with ⟨_ | r, chain₁⟩
  · simp only [htake] at herr hstops hdrop
    obtain ⟨rfl, hnone⟩ := takeIf_eq_none_iff.1 htake
    have hchain : rescales chain = false := by
      cases chain with
      | nil => rfl
      | cons c chain => simpa using hnone c rfl
    rw [hchain]
    refine ⟨_, _, .skip rfl (fun c hc => mt Slot.accepts_iff.1 (hnone c hc)) hstops, ?_⟩
    rw [herr, hdrop, if_neg hplain]
    rfl
  · simp only [htake] at herr hstops hdrop
    obtain ⟨rfl, hr⟩ := takeIf_eq_some_iff.1 htake
    have hisOp : r.isOp .requantize := by simpa using hr
    rw [rescales_cons, hisOp]
    refine ⟨_, _, .take (List.mem_singleton.2 rfl) hisOp hstops, ?_⟩
    rw [herr, if_pos List.mem_cons_self, List.length_cons, List.drop_succ_cons, hdrop]
    rfl

/-- The walk along three calls that must be there stops at the first that is not. -/
theorem stops_of_three {family : Family} {first second third : Operator} {chain : List Call}
    {err : LoweringError} {f : Call × List Call → Call × List Call → Call × List Call → Pattern}
    (h : (do
      let a ← expectOp family first chain
      let b ← expectOp family second a.2
      let c ← expectOp family third b.2
      Except.ok (f a b c)) = .error err) :
    ∃ taken stop, Stops [⟨.outer, [first], false⟩, ⟨.compute, [second], false⟩,
        ⟨.inner, [third], false⟩] chain taken stop ∧
      err = .mismatch family (.call ([first, second].getD taken.length third).name)
        (firstLink (chain.drop taken.length)) := by
  rcases bind_eq_error_iff.1 h with h | ⟨⟨_, _⟩, h₁, h⟩
  · exact ⟨_, _, .of_expectOp_eq_error .outer _ h, expectOp_eq_error h⟩
  rcases bind_eq_error_iff.1 h with h | ⟨⟨_, _⟩, h₂, h⟩
  · obtain ⟨hstops, hdrop⟩ :=
      Stops.of_expectOp_eq_ok .outer h₁ (.of_expectOp_eq_error .compute _ h)
    refine ⟨_, _, hstops, ?_⟩
    rw [hdrop]
    exact expectOp_eq_error h
  rcases bind_eq_error_iff.1 h with h | ⟨⟨_, _⟩, -, h⟩
  · obtain ⟨hstops, hdrop⟩ :=
      Stops.of_expectOp_eq_ok .compute h₂ (.of_expectOp_eq_error .inner [] h)
    obtain ⟨hstops', hdrop'⟩ := Stops.of_expectOp_eq_ok .outer h₁ hstops
    refine ⟨_, _, hstops', ?_⟩
    rw [hdrop', hdrop]
    exact expectOp_eq_error h
  · cases h

theorem stops_of_pool {chain : List Call} (haverage : (takeIf [.avgPool2d] chain).1 = none)
    (hmaximum : (takeIf [.maxPool2d] chain).1 = none) (slots : List Slot) :
    Stops (⟨.compute, [.avgPool2d, .maxPool2d], false⟩ :: slots) chain []
      ⟨.compute, [.avgPool2d, .maxPool2d], false⟩ := by
  refine .here rfl fun c hc haccepts => ?_
  obtain ⟨rest, rfl⟩ := List.head?_eq_some_iff.1 hc
  obtain ⟨op, hop, hisOp⟩ := Slot.exists_isOp haccepts
  rcases List.mem_pair.1 hop with rfl | rfl
  · simp [takeIf, hisOp] at haverage
  · simp [takeIf, hisOp] at hmaximum

/-- A walk that fails stops at a slot, and blames what stands there. -/
theorem stops_of_chain {family : Family} {chain : List Call} {err : LoweringError}
    (h : ofChain family chain = .error err) :
    ∃ taken stop, Stops (family.slots (rescales chain)) chain taken stop ∧
      err = .mismatch family (family.required taken) (firstLink (chain.drop taken.length)) := by
  cases family with
  | convolution | dense =>
      simp only [ofChain] at h
      rcases bind_eq_error_iff.1 h with h | ⟨⟨_, _⟩, -, h⟩
      · exact stops_of_rescaling h
      · cases h
  | qnnSoftmax | qnnSigmoid | qnnAvgPool => exact stops_of_three h
  | pool =>
      simp only [ofChain] at h
      split at h
      · cases h
      · cases h
      · rename_i h₁ h₂
        cases h
        refine ⟨[], _, stops_of_pool ?_ ?_ _, rfl⟩
        · exact Option.eq_none_iff_forall_ne_some.2 fun c hc => h₁ c _ (Prod.ext hc rfl)
        · exact Option.eq_none_iff_forall_ne_some.2 fun c hc => h₂ c _ (Prod.ext hc rfl)

end Pattern

/-! ### What is accepted, what is taken, and what is blamed -/

/-- The operator of the call that computes. -/
def Pattern.operator : Pattern → Operator
  | convolution _ _ _ requantize => if requantize.isSome then .qnnConv2d else .conv2d
  | dense _ _ requantize => if requantize.isSome then .qnnDense else .dense
  | activation which .. => which.operator
  | avgPool .. => .avgPool2d
  | pool which .. => which.operator

/-- The pattern is what a family has to take off a chain: its calls spell the longest word that the
chain opens with, and each slot holds the call at its place exactly if the slot accepts that call.
The place of a slot is the number of calls in the slots before it. -/
structure Pattern.Fills (p : Pattern) (family : Family) (chain : List Call) : Prop where
  ofFamily : p.family = family
  computes : p.compute.isOp p.operator
  filled_iff : ∀ links, Follows (family.slots (rescales chain)) chain links ↔ links = p.links
  longest : ∃ w ∈ family.grammar.matches', Opens w chain ∧ p.calls = chain.take w.length ∧
    ∀ v ∈ family.grammar.matches', Opens v chain → v.length ≤ w.length
  placed : ∀ before slot after, family.slots (rescales chain) = before ++ slot :: after →
    p.links.lookup slot.part =
      slot.callAt? chain (before.filterMap fun s => p.links.lookup s.part).length

/-- The error of a chain that opens with no word: it is taken as far as a word may begin, and what
stands there is not what must come next. -/
def Family.Refuses (family : Family) (chain : List Call) (err : LoweringError) : Prop :=
  ∃ taken, family.Viable taken ∧ Opens taken chain ∧
    (∀ v, family.Viable v → Opens v chain → v.length ≤ taken.length) ∧
    err = .mismatch family (family.required taken)
      (chain[taken.length]?.elim .nothing fun c => .call c.description)

theorem Follows.exists_accepts {slots : List Slot} {chain : List Call} {links : List (Part × Call)}
    (h : Follows slots chain links) :
    ∀ link ∈ links, ∃ slot ∈ slots, slot.part = link.1 ∧ slot.Accepts link.2 := by
  induction h with
  | done => exact List.forall_mem_nil _
  | take hc _ ih =>
      refine List.forall_mem_cons.2 ⟨⟨_, List.mem_cons_self, rfl, hc⟩, fun link hlink => ?_⟩
      obtain ⟨slot, hslot, h⟩ := ih link hlink
      exact ⟨slot, List.mem_cons_of_mem _ hslot, h⟩
  | skip _ _ _ ih =>
      intro link hlink
      obtain ⟨slot, hslot, h⟩ := ih link hlink
      exact ⟨slot, List.mem_cons_of_mem _ hslot, h⟩

namespace Pattern

theorem ops_compute (p : Pattern) :
    ∀ slot ∈ p.kind.slots, slot.part = .compute → slot.ops = [p.operator] := by
  rcases p with ⟨pad, compute, bias, _ | requantize⟩ | ⟨compute, bias, _ | requantize⟩ |
    ⟨_ | _, dequantize, compute, quantize⟩ | ⟨preCast, compute, postCast⟩ |
    ⟨_ | _, pad, compute⟩ <;>
    simp [kind, operator, FusedKind.slots, Activation.kind, Activation.operator, Pooling.kind,
      Pooling.operator]

theorem compute_mem_links (p : Pattern) : (.compute, p.compute) ∈ p.links := by
  cases p <;> simp [links, compute]

theorem isOp_compute {family : Family} {chain : List Call} {p : Pattern}
    (h : ofChain family chain = .ok p) : p.compute.isOp p.operator := by
  obtain ⟨slot, hslot, hpart, haccepts⟩ :=
    (follows_of_chain h).exists_accepts _ p.compute_mem_links
  obtain ⟨op, hop, hisOp⟩ := Slot.exists_isOp haccepts
  rw [p.ops_compute slot hslot hpart, List.mem_singleton] at hop
  rwa [hop] at hisOp

theorem fills_of_chain {family : Family} {chain : List Call} {p : Pattern}
    (h : ofChain family chain = .ok p) : p.Fills family chain := by
  have hfollows := follows_slots h
  obtain ⟨w, hw, hopens, hlength⟩ := hfollows.exists_spells
  have hne := hw.ne_nil (family.exists_required _)
  have hcount : p.calls.length = w.length := by
    rw [← map_snd_links, List.length_map, hlength]
  refine ⟨family_of_chain h, isOp_compute h, ?_, ⟨w, ?_, hopens, ?_, ?_⟩, ?_⟩
  · exact fun links => ⟨fun hlinks => hlinks.unique hfollows, fun hlinks => hlinks ▸ hfollows⟩
  · exact (Family.mem_grammar_iff_spells List.prefix_rfl hne hopens).2 hw
  · obtain ⟨rest, rfl⟩ := calls_append_of_chain h
    rw [← hcount, List.take_left]
  · intro v hv hopensv
    rw [Family.mem_grammar_iff_spells List.prefix_rfl (Family.ne_nil_of_mem hv) hopensv] at hv
    rw [hlength]
    exact hfollows.length_le (family.slots_apart _) hv hopensv
  · intro before slot after hslots
    exact hfollows.lookup_eq (family.nodup_parts _) hslots

/-- Nothing that a word may begin with goes further along a chain than the walk that fails. -/
theorem refuses_of_chain {family : Family} {chain : List Call} {err : LoweringError}
    (h : ofChain family chain = .error err) :
    family.Refuses chain err ∧ ∀ w ∈ family.grammar.matches', ¬Opens w chain := by
  obtain ⟨taken, stop, hstops, rfl⟩ := stops_of_chain h
  have hbound : ∀ v w : List Operator, w ∈ family.grammar.matches' → v <+: w → v ≠ [] →
      Opens v chain → v.length ≤ taken.length ∧ v.length < w.length := by
    intro v w hw hv hne hopens
    rw [Family.mem_grammar_iff_spells hv hne hopens] at hw
    exact hstops.length_le (family.slots_apart _) hw hv hopens
  refine ⟨⟨taken, ?_, hstops.opens, ?_, by rw [firstLink_drop]⟩, ?_⟩
  · by_cases hne : taken = []
    · rw [hne]
      exact family.viable_nil
    · obtain ⟨w, hw, htaken⟩ := hstops.exists_spells (family.ops_ne_nil _)
      exact ⟨w, (Family.mem_grammar_iff_spells htaken hne hstops.opens).2 hw, htaken⟩
  · rintro v ⟨w, hw, hv⟩ hopens
    by_cases hne : v = []
    · rw [hne]
      exact Nat.zero_le _
    · exact (hbound v w hw hv hne hopens).1
  · intro w hw hopens
    have hlt := (hbound w w hw List.prefix_rfl (Family.ne_nil_of_mem hw) hopens).2
    exact Nat.lt_irrefl _ hlt

/-- A call of a function whose body is a call has a pattern of a family exactly if the chain of the
body opens with a word of the grammar. Then it is the one that the longest such word tells.
Otherwise the error names the operator that must come next where the chain leaves the grammar, and
what stands there. -/
theorem ofCall_grammar (family : Family) (root : Call) :
    (root.function? = none → ofCall family root = .error (.unsupportedTarget root.description)) ∧
    ∀ f, root.function? = some f →
      (f.body.call? = none →
        ofCall family root = .error (.mismatch family .anyCall (.node f.body.typeKey))) ∧
      (f.body.call? ≠ none →
        ((∃ p, ofCall family root = .ok p) ↔
          ∃ w ∈ family.grammar.matches', Opens w f.body.chain) ∧
        (∀ p, ofCall family root = .ok p → p.Fills family f.body.chain) ∧
        ∀ err, ofCall family root = .error err → family.Refuses f.body.chain err) := by
  constructor
  · intro hnone
    rw [ofCall, chainOf, hnone]
    rfl
  intro f hf
  constructor
  · intro hnone
    have hchain :
        chainOf family root = .error (.mismatch family .anyCall (.node f.body.typeKey)) := by
      rw [chainOf, hf]
      exact if_neg (by simp [hnone])
    rw [ofCall, hchain]
    rfl
  intro hcall
  have hwalk : ofCall family root = ofChain family f.body.chain := by
    have hchain : chainOf family root = .ok f.body.chain :=
      chainOf_eq_ok_iff.2 ⟨f, hf, Option.isSome_iff_ne_none.2 hcall, rfl⟩
    rw [ofCall, hchain]
    rfl
  rw [hwalk]
  refine ⟨⟨?_, ?_⟩, fun p hp => fills_of_chain hp, fun err herr => (refuses_of_chain herr).1⟩
  · rintro ⟨p, hp⟩
    obtain ⟨w, hw, hopens, -⟩ := (fills_of_chain hp).longest
    exact ⟨w, hw, hopens⟩
  · rintro ⟨w, hw, hopens⟩
    rcases hend : ofChain family f.body.chain with err | p
    · exact absurd hopens ((refuses_of_chain hend).2 w hw)
    · exact ⟨p, rfl⟩

/-- A bias is taken, and then a convolution must come. -/
example :
    ofCall .convolution ⟨.expr (.function 0 [] (.opCall 1 "add" [.opCall 2 "nn.dense" [] .empty]
      .empty) .empty), [], .empty⟩ =
      .error (.mismatch .convolution (.call "nn.conv2d") (.call "nn.dense")) :=
  rfl

end Pattern

end KernelGraph
