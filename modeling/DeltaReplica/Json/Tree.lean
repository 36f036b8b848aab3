import DeltaReplica.Json.Token

/-!
# Trees of JSON text

A tree is a JSON text without its blanks: numbers and strings are kept as they were
written, and the members of an object in their order, repeated names included.  What a
reader makes of them is up to the reader.

A tree is built from tokens by a machine with a stack of open brackets, so the depth of
a text is bounded by nothing but its length.
-/

namespace DeltaReplica.Json

/-- A JSON text without its blanks. -/
inductive Tree
  /-- The null value. -/
  | null
  /-- A truth value. -/
  | bool (b : Bool)
  /-- A number. -/
  | number (n : Numeral)
  /-- A string. -/
  | string (l : Literal)
  /-- An array. -/
  | array (items : List Tree)
  /-- An object, by its members in order. -/
  | object (members : List (Literal × Tree))
deriving Inhabited

/-- Induction over the nesting of trees: an array holds its items, and an object holds the values of
its members. -/
@[elab_as_elim]
theorem Tree.induction {motive : Tree → Prop} (null : motive .null) (bool : ∀ b, motive (.bool b))
    (number : ∀ n, motive (.number n)) (string : ∀ l, motive (.string l))
    (array : ∀ ts, (∀ t ∈ ts, motive t) → motive (.array ts))
    (object : ∀ ms, (∀ m ∈ ms, motive m.2) → motive (.object ms)) (t : Tree) : motive t := by
  match t with
  | .null => exact null
  | .bool b => exact bool b
  | .number n => exact number n
  | .string l => exact string l
  | .array ts => exact array ts fun t _ => induction null bool number string array object t
  | .object ms => exact object ms fun m _ => induction null bool number string array object m.2
termination_by t
decreasing_by
  · rename_i h
    have h := List.sizeOf_lt_of_mem h
    simp
    omega
  · rename_i h
    have h := List.sizeOf_lt_of_mem h
    cases m
    simp at h ⊢
    omega

/-- A bracket that is still open, with what stands in it so far, the last item first. -/
inductive Frame
  /-- An array. -/
  | array (items : List Tree)
  /-- An object. -/
  | object (members : List (Literal × Tree))
  /-- An object that waits for the value of a name. -/
  | member (members : List (Literal × Tree)) (name : Literal)
deriving Inhabited

/-- What a text that has been read so far needs next, inside its open brackets. -/
inductive Awaiting
  /-- A value. -/
  | value (stack : List Frame)
  /-- The first item of an array or its end. -/
  | item (stack : List Frame)
  /-- A name of a member. -/
  | name (members : List (Literal × Tree)) (stack : List Frame)
  /-- The first name of an object or its end. -/
  | firstName (stack : List Frame)
  /-- The colon after a name. -/
  | colon (members : List (Literal × Tree)) (name : Literal) (stack : List Frame)
  /-- A comma or the end of the innermost bracket. -/
  | separator (stack : List Frame)
  /-- Nothing. -/
  | nothing (t : Tree)
deriving Inhabited

namespace Awaiting

/-- What is needed after a complete value. -/
def after (t : Tree) : List Frame → Option Awaiting
  | [] => some (.nothing t)
  | .array items :: stack => some (.separator (.array (t :: items) :: stack))
  | .member members l :: stack => some (.separator (.object ((l, t) :: members) :: stack))
  | .object _ :: _ => none

/-- What is needed after the first token of a value. -/
def begin (stack : List Frame) : Token → Option Awaiting
  | .null => after .null stack
  | .bool b => after (.bool b) stack
  | .number n => after (.number n) stack
  | .string l => after (.string l) stack
  | .openArray => some (.item stack)
  | .openObject => some (.firstName stack)
  | _ => none

/-- What is needed after a further token. -/
def step : Awaiting → Token → Option Awaiting
  | .value stack, t => begin stack t
  | .item stack, .closeArray => after (.array []) stack
  | .item stack, t => begin (.array [] :: stack) t
  | .name members stack, .string l => some (.colon members l stack)
  | .firstName stack, .closeObject => after (.object []) stack
  | .firstName stack, .string l => some (.colon [] l stack)
  | .colon members l stack, .colon => some (.value (.member members l :: stack))
  | .separator (.array items :: stack), .comma => some (.value (.array items :: stack))
  | .separator (.array items :: stack), .closeArray => after (.array items.reverse) stack
  | .separator (.object members :: stack), .comma => some (.name members stack)
  | .separator (.object members :: stack), .closeObject => after (.object members.reverse) stack
  | _, _ => none

end Awaiting

namespace Tree

/-- The tree of a sequence of tokens. -/
def ofTokens? (ts : List Token) : Option Tree :=
  match ts.foldlM Awaiting.step (.value []) with
  | some (.nothing t) => some t
  | _ => none

/-- The tree of a text. -/
def ofChars? (cs : List Char) : Option Tree := (tokens? cs).bind ofTokens?

mutual

/-- The tokens of a tree. -/
def tokens : Tree → List Token
  | .null => [.null]
  | .bool b => [.bool b]
  | .number n => [.number n]
  | .string l => [.string l]
  | .array [] => [.openArray, .closeArray]
  | .array (t :: ts) => .openArray :: tokens t ++ itemTokens ts ++ [.closeArray]
  | .object [] => [.openObject, .closeObject]
  | .object ((l, t) :: ms) =>
    .openObject :: .string l :: .colon :: tokens t ++ memberTokens ms ++ [.closeObject]

/-- The tokens of the further items of an array. -/
def itemTokens : List Tree → List Token
  | [] => []
  | t :: ts => .comma :: tokens t ++ itemTokens ts

/-- The tokens of the further members of an object. -/
def memberTokens : List (Literal × Tree) → List Token
  | [] => []
  | (l, t) :: ms => .comma :: .string l :: .colon :: tokens t ++ memberTokens ms

end

/-- The text of a tree, without blanks. -/
def chars (t : Tree) : List Char := t.tokens.flatMap Token.written

mutual

/-- How many brackets are open at most at the same time. -/
def depth : Tree → Nat
  | .array ts => depthOfItems ts + 1
  | .object ms => depthOfMembers ms + 1
  | _ => 0

/-- The greatest depth among items. -/
def depthOfItems : List Tree → Nat
  | [] => 0
  | t :: ts => max (depth t) (depthOfItems ts)

/-- The greatest depth among members. -/
def depthOfMembers : List (Literal × Tree) → Nat
  | [] => 0
  | (_, t) :: ms => max (depth t) (depthOfMembers ms)

end

mutual

/-- Whether a tree has no raw controls in its strings, which is all that is asked of one that is
skipped. -/
def isSkippable : Tree → Bool
  | .string l => l.isSkippable
  | .array ts => areSkippable ts
  | .object ms => membersAreSkippable ms
  | _ => true

/-- Whether all items can be skipped. -/
def areSkippable : List Tree → Bool
  | [] => true
  | t :: ts => isSkippable t && areSkippable ts

/-- Whether all members can be skipped, with their names. -/
def membersAreSkippable : List (Literal × Tree) → Bool
  | [] => true
  | (l, t) :: ms => l.isSkippable && isSkippable t && membersAreSkippable ms

end

end Tree

end DeltaReplica.Json
