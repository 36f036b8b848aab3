import DeltaReplica.FinMap
import DeltaReplica.Json.Number
import DeltaReplica.Json.Tree

/-!
# JSON values

A value is what a text means: numbers are numbers, strings are texts, and objects are
finite maps, in which the last of several members with one name wins.  The text of a
value has no blanks, and the members of every object stand in it as the value keeps them.
Canonical values keep them in the order of their names, so equal canonical values have
equal texts.
-/

namespace DeltaReplica.Json

/-- A JSON value. -/
inductive Value
  /-- The null value. -/
  | null
  /-- A truth value. -/
  | bool (b : Bool)
  /-- A number. -/
  | number (n : Number)
  /-- A text. -/
  | string (s : String)
  /-- An array. -/
  | array (items : List Value)
  /-- An object. -/
  | object (members : FinMap String Value)

instance : Inhabited Value := ⟨.null⟩

/-- Induction over the nesting of values: an array holds its items, and an object holds the values
of its members. -/
@[elab_as_elim]
theorem Value.induction {motive : Value → Prop} (null : motive .null) (bool : ∀ b, motive (.bool b))
    (number : ∀ n, motive (.number n)) (string : ∀ s, motive (.string s))
    (array : ∀ vs, (∀ v ∈ vs, motive v) → motive (.array vs))
    (object : ∀ m, (∀ b ∈ m.entries, motive b.2) → motive (.object m)) (v : Value) : motive v := by
  match v with
  | .null => exact null
  | .bool b => exact bool b
  | .number n => exact number n
  | .string s => exact string s
  | .array vs => exact array vs fun v _ => induction null bool number string array object v
  | .object ⟨bs⟩ => exact object ⟨bs⟩ fun b _ => induction null bool number string array object b.2
termination_by v
decreasing_by
  · rename_i h
    have h := List.sizeOf_lt_of_mem h
    simp
    omega
  · rename_i h
    have h := List.sizeOf_lt_of_mem h
    cases b
    simp at h ⊢
    omega

mutual

/-- The value that a tree means. -/
def Tree.value? : Tree → Option Value
  | .null => some .null
  | .bool b => some (.bool b)
  | .number n => (Number.ofNumeral? n).map .number
  | .string l => l.string?.map .string
  | .array ts => (Tree.items? ts).map .array
  | .object ms => (Tree.members? ms).map fun bs => .object (.ofList bs)

/-- The values of the items of an array. -/
def Tree.items? : List Tree → Option (List Value)
  | [] => some []
  | t :: ts => (Tree.value? t).bind fun v => (Tree.items? ts).map (v :: ·)

/-- The values of the members of an object. -/
def Tree.members? : List (Literal × Tree) → Option (List (String × Value))
  | [] => some []
  | (l, t) :: ms =>
    l.string?.bind fun s => (Tree.value? t).bind fun v => (Tree.members? ms).map ((s, v) :: ·)

end

namespace Value

/-- How many brackets may be open at the same time in a text that is read as a value. -/
def maxDepth : Nat := 127

/-- The value of a text. -/
def ofChars? (cs : List Char) : Option Value :=
  (Tree.ofChars? cs).bind fun t => if t.depth ≤ maxDepth then t.value? else none

mutual

/-- The tree of a value. -/
def tree : Value → Tree
  | .null => .null
  | .bool b => .bool b
  | .number n => .number n.numeral
  | .string s => .string (.ofChars s.toList)
  | .array vs => .array (itemTrees vs)
  | .object ⟨bs⟩ => .object (memberTrees bs)

/-- The trees of the items of an array. -/
def itemTrees : List Value → List Tree
  | [] => []
  | v :: vs => tree v :: itemTrees vs

/-- The trees of the members of an object. -/
def memberTrees : List (String × Value) → List (Literal × Tree)
  | [] => []
  | (s, v) :: bs => (.ofChars s.toList, tree v) :: memberTrees bs

end

/-- The text of a value. -/
def chars (v : Value) : List Char := v.tree.chars

mutual

/-- The value with the members of every object in the order of their names, in whatever order it
keeps them. -/
def canonical : Value → Value
  | .array vs => .array (canonicalItems vs)
  | .object ⟨bs⟩ => .object (.ofList (canonicalMembers bs))
  | .null => .null
  | .bool b => .bool b
  | .number n => .number n
  | .string s => .string s

/-- The items of an array with the members of every object in order. -/
def canonicalItems : List Value → List Value
  | [] => []
  | v :: vs => canonical v :: canonicalItems vs

/-- The members of an object with the members of every object in their values in order. -/
def canonicalMembers : List (String × Value) → List (String × Value)
  | [] => []
  | (s, v) :: bs => (s, canonical v) :: canonicalMembers bs

end

mutual

/-- Equality of values, with numbers compared as numbers. -/
def same : Value → Value → Bool
  | .null, .null => true
  | .bool a, .bool b => a = b
  | .number m, .number n => m.same n
  | .string s, .string t => s = t
  | .array vs, .array ws => sameItems vs ws
  | .object ⟨bs⟩, .object ⟨cs⟩ => sameMembers bs cs
  | _, _ => false

/-- Equality of the items of two arrays. -/
def sameItems : List Value → List Value → Bool
  | [], [] => true
  | v :: vs, w :: ws => same v w && sameItems vs ws
  | _, _ => false

/-- Equality of the members of two objects. -/
def sameMembers : List (String × Value) → List (String × Value) → Bool
  | [], [] => true
  | (s, v) :: bs, (t, w) :: cs => s = t && same v w && sameMembers bs cs
  | _, _ => false

end

instance : BEq Value := ⟨same⟩

end Value

end DeltaReplica.Json
