import KernelGraph.Proofs.Loading
import Mathlib.Algebra.BigOperators.Group.List.Basic
import Mathlib.Algebra.GroupWithZero.Basic

/-!
How many elements a shape asks for. Extents are multiplied from the first one on, and the count is
given up as soon as it does not fit a word. So it is the product of all extents, or there is none,
exactly as the product fits a word or does not, except for one kind of shape
(`Shape.count?_eq_some_iff`): where the extents before a zero overflow already, the zero that makes
the product fit comes too late (`Shape.OverflowsBeforeZero`).
-/

namespace KernelGraph

namespace Shape

/-- The product of all extents, however large. -/
def product (shape : Shape) : Nat := (shape.map UInt64.toNat).prod

/-- The product of the extents before some zero does not fit a word. -/
def OverflowsBeforeZero (shape : Shape) : Prop :=
  ∃ before after, shape = before ++ 0 :: after ∧ UInt64.size ≤ product before

theorem product_nil : product [] = 1 := rfl

theorem product_cons (extent : UInt64) (shape : Shape) :
    product (extent :: shape) = extent.toNat * product shape := List.prod_cons

theorem product_append (before after : Shape) :
    product (before ++ after) = product before * product after := by
  rw [product, List.map_append, List.prod_append]
  rfl

theorem product_eq_zero_iff {shape : Shape} : product shape = 0 ↔ 0 ∈ shape := by
  induction shape with
  | nil => simp [product_nil]
  | cons extent shape ih =>
      have hzero : extent.toNat = 0 ↔ 0 = extent := by
        rw [← UInt64.toNat_inj, eq_comm]
        rfl
      rw [product_cons, Nat.mul_eq_zero, ih, hzero, List.mem_cons]

theorem product_eq_of_perm {shape other : Shape} (h : shape.Perm other) :
    product shape = product other := (h.map _).prod_eq

/-- The count goes on to the last extent if it fits a word at every extent on the way. -/
theorem foldlM_extend?_eq_some_iff {shape : Shape} {count n : Nat} (hcount : count < UInt64.size) :
    shape.foldlM extend? count = some n ↔
      count * product shape = n ∧ ∀ leading, leading <+: shape →
        count * product leading < UInt64.size := by
  induction shape generalizing count with
  | nil =>
      rw [List.foldlM_nil, product_nil, Nat.mul_one]
      constructor
      · rintro ⟨⟩
        refine ⟨rfl, fun leading hleading => ?_⟩
        rwa [List.prefix_nil.1 hleading, product_nil, Nat.mul_one]
      · rintro ⟨rfl, -⟩
        rfl
  | cons extent shape ih =>
      have hcases : ∀ leading, leading <+: extent :: shape ↔
          leading = [] ∨ ∃ rest, leading = extent :: rest ∧ rest <+: shape := fun leading =>
        List.prefix_cons_iff
      rw [List.foldlM_cons]
      by_cases hfits : count * extent.toNat < UInt64.size
      · have hextend : extend? count extent = some (count * extent.toNat) := if_pos hfits
        rw [hextend, Option.bind_eq_bind, Option.bind_some, ih hfits, product_cons, Nat.mul_assoc]
        refine and_congr_right fun _ => ⟨fun h leading hleading => ?_, fun h rest hrest => ?_⟩
        · rcases (hcases leading).1 hleading with rfl | ⟨rest, rfl, hrest⟩
          · rwa [product_nil, Nat.mul_one]
          · rw [product_cons, ← Nat.mul_assoc]
            exact h rest hrest
        · have hfits' := h _ ((hcases _).2 (.inr ⟨rest, rfl, hrest⟩))
          rwa [product_cons, ← Nat.mul_assoc] at hfits'
      · have hextend : extend? count extent = none := if_neg hfits
        rw [hextend]
        refine ⟨nofun, fun ⟨_, h⟩ => absurd ?_ hfits⟩
        have hfirst := h [extent] ((hcases _).2 (.inr ⟨[], rfl, List.nil_prefix⟩))
        rwa [product_cons, product_nil, Nat.mul_one] at hfirst

/-- All leading products fit a word if the product of all extents does, unless a zero hides one that
does not. -/
theorem forall_leading_iff {shape : Shape} :
    (∀ leading, leading <+: shape → product leading < UInt64.size) ↔
      product shape < UInt64.size ∧ ¬shape.OverflowsBeforeZero := by
  constructor
  · refine fun h => ⟨h shape (List.prefix_refl _), ?_⟩
    rintro ⟨before, after, rfl, hbefore⟩
    exact (h before (List.prefix_append _ _)).not_ge hbefore
  · rintro ⟨hfits, hzero⟩ leading ⟨rest, rfl⟩
    by_contra hleading
    have hle : UInt64.size ≤ product leading := Nat.not_lt.1 hleading
    by_cases hmem : 0 ∈ rest
    · -- the extents between the leading ones and the first zero make their product no smaller
      obtain ⟨between, after, rfl, hbetween⟩ := List.eq_append_cons_of_mem hmem
      have hpos : 0 < product between := Nat.pos_of_ne_zero (mt product_eq_zero_iff.1 hbetween)
      refine hzero ⟨leading ++ between, after, (List.append_assoc ..).symm, ?_⟩
      rw [product_append]
      exact hle.trans (Nat.le_mul_of_pos_right _ hpos)
    · have hpos : 0 < product rest := Nat.pos_of_ne_zero (mt product_eq_zero_iff.1 hmem)
      rw [product_append] at hfits
      exact hfits.not_ge (hle.trans (Nat.le_mul_of_pos_right _ hpos))

theorem count?_eq_some_iff {shape : Shape} {n : Nat} :
    shape.count? = some n ↔
      shape.product = n ∧ shape.product < UInt64.size ∧ ¬shape.OverflowsBeforeZero := by
  rw [count?, foldlM_extend?_eq_some_iff (by decide)]
  simp only [Nat.one_mul]
  rw [forall_leading_iff]

theorem count?_eq_none_iff {shape : Shape} :
    shape.count? = none ↔ UInt64.size ≤ shape.product ∨ shape.OverflowsBeforeZero := by
  rw [Option.eq_none_iff_forall_ne_some]
  simp only [ne_eq, count?_eq_some_iff]
  constructor
  · intro h
    by_contra hnone
    obtain ⟨hfits, hzero⟩ := not_or.1 hnone
    exact h _ ⟨rfl, Nat.not_le.1 hfits, hzero⟩
  · rintro (hlarge | hzero) n ⟨-, hfits, hnot⟩
    · exact hfits.not_ge hlarge
    · exact hnot hzero

end Shape

/-- There are as many elements as the shape asks for, and they can be counted. -/
structure Tensor.Counted (t : Tensor) : Prop where
  length : t.elements.length = t.shape.product
  fits : t.shape.product < UInt64.size
  noticed : ¬t.shape.OverflowsBeforeZero

theorem Tensor.make_isOk_iff (t : Tensor) :
    (∃ t', make t.shape t.elements = .ok t') ↔ t.Counted := by
  unfold make
  cases hcount : t.shape.count? with
  | none =>
      refine ⟨nofun, fun h => ?_⟩
      have hsome := Shape.count?_eq_some_iff.2 ⟨rfl, h.fits, h.noticed⟩
      rw [hcount] at hsome
      cases hsome
  | some n =>
      obtain ⟨rfl, hfits, hzero⟩ := Shape.count?_eq_some_iff.1 hcount
      dsimp only
      by_cases hlength : t.elements.length = t.shape.product
      · rw [if_pos hlength]
        exact ⟨fun _ => ⟨hlength, hfits, hzero⟩, fun _ => ⟨_, rfl⟩⟩
      · rw [if_neg hlength]
        exact ⟨nofun, fun h => absurd h.length hlength⟩

/-- The constants of a document that can be read are counted. -/
theorem Document.counted_of_build {d : Document} {e : Expr} (h : d.build = .ok e) {value : Tensor}
    (hvalue : .constant value ∈ d.records) : value.Counted := by
  have hwellFormed := d.wellFormed_iff.2 (d.reports_document.ok_iff.1 ⟨e, h⟩)
  obtain ⟨earlier, later, hrecords⟩ := List.append_of_mem hvalue
  have hfits : (Record.constant value).Fits earlier := hwellFormed.records _ _ _ hrecords
  exact value.make_isOk_iff.1 hfits

theorem Record.build_constant_isOk_iff (built : List Expr) (value : Tensor) :
    (∃ e, (constant value).build built = .ok e) ↔ value.Counted := by
  rw [← value.make_isOk_iff, build]
  cases Tensor.make value.shape value.elements <;> simp

/-- A shape is counted exactly unless its leading extents overflow before a zero: then the count is
the product of the extents, it is missing if the product does not fit a word, and the order of the
extents does not matter. A tensor of the shape is made, and a constant of a document is read, exactly
if it has as many elements as the shape is counted to ask for. -/
theorem Shape.count?_exact (shape : Shape) :
    (∀ n, shape.count? = some n ↔
      shape.product = n ∧ n < UInt64.size ∧ ¬shape.OverflowsBeforeZero) ∧
    (shape.count? = none ↔ UInt64.size ≤ shape.product ∨ shape.OverflowsBeforeZero) ∧
    (∀ other : Shape, shape.Perm other → ¬shape.OverflowsBeforeZero →
      ¬other.OverflowsBeforeZero → shape.count? = other.count?) ∧
    (∀ elements, (∃ t, Tensor.make shape elements = .ok t) ↔
      elements.length = shape.product ∧ shape.product < UInt64.size ∧
        ¬shape.OverflowsBeforeZero) ∧
    (∀ elements built, (∃ e, (Record.constant ⟨shape, elements⟩).build built = .ok e) ↔
      ∃ t, Tensor.make shape elements = .ok t) ∧
    ∀ (d : Document) (e : Expr), d.build = .ok e →
      ∀ elements, .constant ⟨shape, elements⟩ ∈ d.records → elements.length = shape.product := by
  have hsome : ∀ (shape : Shape) (n : Nat), shape.count? = some n ↔
      shape.product = n ∧ n < UInt64.size ∧ ¬shape.OverflowsBeforeZero := by
    intro shape n
    rw [count?_eq_some_iff]
    refine and_congr_right fun hproduct => ?_
    rw [hproduct]
  refine ⟨hsome shape, count?_eq_none_iff, fun other hperm hshape hother => ?_,
    fun elements => ?_, fun elements built => ?_, fun d e h elements hvalue => ?_⟩
  · apply Option.ext
    intro n
    rw [hsome, hsome, product_eq_of_perm hperm]
    simp [hshape, hother]
  · rw [Tensor.make_isOk_iff ⟨shape, elements⟩]
    exact ⟨fun h => ⟨h.length, h.fits, h.noticed⟩, fun ⟨hlength, hfits, hzero⟩ =>
      ⟨hlength, hfits, hzero⟩⟩
  · rw [Record.build_constant_isOk_iff, ← Tensor.make_isOk_iff]
  · exact (Document.counted_of_build h hvalue).length

/-- The six elements of a matrix are counted by rows as by columns, and read from a document. -/
theorem Shape.count?_matrix :
    ([2, 3] : Shape).Perm [3, 2] ∧ ¬OverflowsBeforeZero [2, 3] ∧ ¬OverflowsBeforeZero [3, 2] ∧
      count? [2, 3] = count? [3, 2] ∧
      (∃ e, Document.build ⟨[.constant ⟨[2, 3], .uint8 [1, 2, 3, 4, 5, 6]⟩], 0⟩ = .ok e) ∧
      (Elements.uint8 [1, 2, 3, 4, 5, 6]).length = product [2, 3] := by
  obtain ⟨-, -, horder, -, -, hdocument⟩ := count?_exact [2, 3]
  have hnonzero : ∀ {shape : Shape}, 0 ∉ shape → ¬shape.OverflowsBeforeZero := by
    rintro _ hmem ⟨before, after, rfl, -⟩
    exact hmem (List.mem_append_right _ List.mem_cons_self)
  have hrows : ¬OverflowsBeforeZero [2, 3] := hnonzero (by decide)
  have hcolumns : ¬OverflowsBeforeZero [3, 2] := hnonzero (by decide)
  have hperm : ([2, 3] : Shape).Perm [3, 2] := .swap ..
  have hlength := hdocument ⟨[.constant ⟨[2, 3], .uint8 [1, 2, 3, 4, 5, 6]⟩], 0⟩ _ rfl _
    List.mem_cons_self
  exact ⟨hperm, hrows, hcolumns, horder _ hperm hrows hcolumns, ⟨_, rfl⟩, hlength⟩

/-- A shape of no elements, two extents of which overflow. -/
def Shape.wide : Shape := [4294967296, 4294967296, 0]

/-- Its elements are none, but it is not counted, and no tensor of the shape is made. With the zero in
front it is. -/
theorem Shape.not_count?_wide : wide.product = 0 ∧ wide.count? = none ∧
    wide.OverflowsBeforeZero ∧
    Tensor.make wide (.int8 []) = .error (.overflow wide) ∧
    count? [0, 4294967296, 4294967296] = some 0 ∧
    Tensor.make [0, 4294967296, 4294967296] (.int8 []) =
      .ok ⟨[0, 4294967296, 4294967296], .int8 []⟩ :=
  ⟨by decide, by decide, ⟨[4294967296, 4294967296], [], rfl, by decide⟩, by decide, by decide,
    by decide⟩

end KernelGraph
