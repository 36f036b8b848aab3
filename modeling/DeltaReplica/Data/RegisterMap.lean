import DeltaReplica.Data.Register
import DeltaReplica.Data.UniformMap

/-!
# Maps of registers

A key comes into being by the first write to it.
-/

namespace DeltaReplica

/-- A map from `K` to registers of `V`. -/
abbrev RegisterMap (K V : Type) := UniformMap K (Register V)

namespace RegisterMap

variable {K V : Type} [Element K]

/-- The value of a register. -/
def value? (k : K) (m : RegisterMap K V) : Option V := (m.get? k).map Register.value

/-- The map after a write to a register. -/
def set (k : K) (v : V) (stamp : Stamp) (m : RegisterMap K V) : RegisterMap K V :=
  m.modify k (.new v stamp) (Register.set v stamp)

end RegisterMap

instance : DeltaForm (UniformMapDelta RegisterDelta) where
  kind := .registerMap
  wrap := .registerMap
  unwrap?
    | .registerMap d => some d
    | _ => none
  unwrap?_eq_some_iff {d e} := by cases d <;> simp
  kind_wrap _ := rfl

end DeltaReplica
