import ScalarLowering.Types.Basic

/-! Operands: variables and typed constants. -/

namespace ScalarLowering

@[ext] structure VarId where
  index : Nat
  deriving DecidableEq

@[ext] structure OpId where
  index : Nat
  deriving DecidableEq

@[ext] structure BlockId where
  index : Nat
  deriving DecidableEq

def VarId.label (v : VarId) : String := s!"VarId({v.index})"

def OpId.label (id : OpId) : String := s!"OpId({id.index})"

def BlockId.label (b : BlockId) : String := s!"BlockId({b.index})"

/-- The payload of a constant. A float is its bit pattern. -/
inductive Payload
  | int (value : Int64)
  | float (bits : UInt64)
  | bool (value : Bool)
  | null
  deriving DecidableEq

structure Constant where
  type : TypeId
  value : Payload
  deriving DecidableEq

namespace Constant

def int (t : TypeId) (value : Int64) : Constant := ⟨t, .int value⟩

/-- A single-precision constant; its bits are the low half of the payload. -/
def single (bits : UInt32) : Constant := ⟨.ofScalar .f32, .float bits.toUInt64⟩

def double (bits : UInt64) : Constant := ⟨.ofScalar .f64, .float bits⟩

def bool (value : Bool) : Constant := ⟨.ofScalar .bool, .bool value⟩

def null (t : TypeId) : Constant := ⟨t, .null⟩

end Constant

inductive Expr
  | var (v : VarId)
  | const (c : Constant)
  deriving DecidableEq

namespace Expr

def var? : Expr → Option VarId
  | .var v => some v
  | .const _ => none

@[simp] theorem var?_var (v : VarId) : (Expr.var v).var? = some v := rfl

@[simp] theorem var?_const (c : Constant) : (Expr.const c).var? = none := rfl

theorem var?_eq_some {e : Expr} {v : VarId} : e.var? = some v ↔ e = .var v := by
  cases e <;> simp [var?]

def isConst : Expr → Bool
  | .var _ => false
  | .const _ => true

end Expr
end ScalarLowering
