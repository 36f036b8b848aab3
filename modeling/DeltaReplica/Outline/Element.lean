import DeltaReplica.Double.Shortest
import DeltaReplica.Json.Value
import DeltaReplica.Label
import DeltaReplica.Outline

/-!
# Outlines of elements

Text is quoted, numbers are plain, and byte strings are lists of numbers.
-/

namespace DeltaReplica

instance : HasOutline String where
  outline s := .atom (Text.quote Text.isHidden s.toList)

instance : HasOutline (List UInt8) where
  outline bytes := .list (bytes.map fun b => .atom (decimal b.toNat))

instance : HasOutline Bool where
  outline b := .ofString (if b then "true" else "false")

instance : HasOutline Int32 where
  outline i := .atom (decimalInt i.toInt)

instance : HasOutline Int64 where
  outline i := .atom (decimalInt i.toInt)

instance : HasOutline UInt32 where
  outline n := .atom (decimal n.toNat)

instance : HasOutline UInt64 where
  outline n := .atom (decimal n.toNat)

/-- Doubles are plain from 1e-5 to 1e16; no exponent has a plus sign. -/
instance : HasOutline Double where
  outline d := .atom (d.text { plainFrom := -5, plainBelow := 16, plusSign := false })

instance : HasOutline Payload where
  outline p := .atom (dump p.typeUrl p.value)

instance {α : Type} [HasOutline α] : HasOutline (Option α) where
  outline
    | none => .ofString "None"
    | some a => .tuple "Some" [outline a]

namespace Json.Value

/-- A text in brackets after a name. -/
def named (name : String) (text : List Char) : Outline :=
  .atom (name.toList ++ '(' :: text ++ [')'])

mutual

/-- The outline of a JSON value. -/
def outline : Value → Outline
  | .null => .ofString "Null"
  | .bool b => named "Bool" ((HasOutline.outline b).chars false)
  | .number n => named "Number" n.numeral.chars
  | .string s => named "String" ((HasOutline.outline s).chars false)
  | .array vs => .titled "Array" (.list (itemOutlines vs))
  | .object ⟨bs⟩ => .titled "Object" (.map (memberOutlines bs))

/-- The outlines of the items of an array. -/
def itemOutlines : List Value → List Outline
  | [] => []
  | v :: vs => outline v :: itemOutlines vs

/-- The outlines of the members of an object. -/
def memberOutlines : List (String × Value) → List (Outline × Outline)
  | [] => []
  | (s, v) :: bs => (HasOutline.outline s, outline v) :: memberOutlines bs

end

end Json.Value

instance : HasOutline Json.Value := ⟨Json.Value.outline⟩

end DeltaReplica
