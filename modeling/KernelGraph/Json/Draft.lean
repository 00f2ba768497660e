import KernelGraph.Json.Token

/-!
What a JSON text says, as far as it is well formed.

A draft is a tree like a value's, but a bracket may be left open and a value may be broken off.
After the first fault nothing more of the text is read, so the fault is the last thing in the tree
in the order of the text. A reader that walks the tree in that order therefore meets whichever comes
first, the fault of the text or a value of the wrong kind.

The tree is built token by token. The brackets that are still open form a stack, innermost first.
-/

namespace KernelGraph

open Decimal

/-- A JSON text up to its first fault. A field's name is a draft too, since a fault may be that it
is no string. -/
inductive Draft where
  | null
  | bool (b : Bool)
  | number (n : Numeral)
  | text (value : Option String)
  | list (items : List Draft) (closed : Bool)
  | record (fields : List (Draft × Draft)) (closed : Bool)
  | broken
deriving Inhabited

namespace Draft

/-- A bracket that is still open, with what it holds so far, last first; in a record the name is
known of the value that comes next. -/
inductive Opening where
  | list (items : List Draft)
  | record (fields : List (Draft × Draft)) (name : Draft)

/-- The bracket left open after one more value. -/
def Opening.abandon : Opening → Draft → Draft
  | .list items, d => .list (d :: items).reverse false
  | .record fields name, d => .record ((name, d) :: fields).reverse false

/-- The tree of a text whose fault is in `d`: all brackets around it stay open. -/
def abandon (stack : List Opening) (d : Draft) : Draft :=
  stack.foldl (fun d opening => opening.abandon d) d

/-- A text read to its end: its tree, and whether nothing but the value stands in the text. -/
structure Whole where
  draft : Draft
  alone : Bool

/-- The draft of a token in the place of a name. -/
def ofToken : Token → Draft
  | .null => .null
  | .bool b => .bool b
  | .number n => .number n
  | .text value => .text value
  | .openList => .list [] false
  | .openRecord => .record [] false
  | .closeList | .closeRecord | .comma | .colon | .unknown => .broken

mutual

/-- Goes on where a value is due. -/
def value (stack : List Opening) : List Token → Whole
  | .null :: ts => after stack .null ts
  | .bool b :: ts => after stack (.bool b) ts
  | .number n :: ts => after stack (.number n) ts
  | .text t :: ts => after stack (.text t) ts
  | .openList :: .closeList :: ts => after stack (.list [] true) ts
  | .openList :: ts => value (.list [] :: stack) ts
  | .openRecord :: .closeRecord :: ts => after stack (.record [] true) ts
  | .openRecord :: ts => name stack [] ts
  | _ => ⟨abandon stack .broken, false⟩

/-- Goes on where a name is due, in a record that holds `fields`, last first. -/
def name (stack : List Opening) (fields : List (Draft × Draft)) : List Token → Whole
  | .text t :: .colon :: ts => value (.record fields (.text t) :: stack) ts
  | t :: _ => ⟨abandon (.record fields (ofToken t) :: stack) .broken, false⟩
  | [] => ⟨abandon (.record fields .broken :: stack) .broken, false⟩

/-- Goes on after the value `d`. -/
def after (stack : List Opening) (d : Draft) (tokens : List Token) : Whole :=
  match stack, tokens with
  | [], ts => ⟨d, ts.isEmpty⟩
  | .list items :: stack, .comma :: ts => value (.list (d :: items) :: stack) ts
  | .list items :: stack, .closeList :: ts => after stack (.list (d :: items).reverse true) ts
  | .record fields n :: stack, .comma :: ts => name stack ((n, d) :: fields) ts
  | .record fields n :: stack, .closeRecord :: ts =>
    after stack (.record ((n, d) :: fields).reverse true) ts
  | opening :: stack, _ => ⟨abandon stack (opening.abandon d), false⟩

end

/-- The tree of a text. -/
def ofText (text : String) : Whole := value [] (Token.ofChars text.toList)

mutual

/-- Whether the text of the draft is well formed by the grammar alone, whatever its strings and its
numbers stand for. -/
def isWellFormed : Draft → Bool
  | .list items closed => closed && areWellFormed items
  | .record fields closed => closed && haveWellFormed fields
  | .broken => false
  | _ => true

def areWellFormed : List Draft → Bool
  | [] => true
  | d :: ds => d.isWellFormed && areWellFormed ds

def haveWellFormed : List (Draft × Draft) → Bool
  | [] => true
  | (name, d) :: fields =>
    (match name with | .text _ => true | _ => false) && d.isWellFormed && haveWellFormed fields

end

end Draft

end KernelGraph
