import ScalarLowering.Scalar.Kind

/-! Handles for types, names, fields and methods, and what each of them stands for.
The void type, the scalar wrappers and the root reference type have fixed ids. -/

namespace ScalarLowering

/-- The result of looking an id up; `none` when the id names nothing. -/
abbrev Lookup (α : Type) := Option α

@[ext] structure TypeId where
  index : Nat
  deriving DecidableEq

@[ext] structure NameId where
  index : Nat
  deriving DecidableEq

@[ext] structure FieldId where
  index : Nat
  deriving DecidableEq

@[ext] structure MethodId where
  index : Nat
  deriving DecidableEq

def NameId.label (n : NameId) : String := s!"Name({n.index})"

def FieldId.label (f : FieldId) : String := s!"FieldId({f.index})"

namespace TypeId

def void : TypeId := ⟨0⟩

def object : TypeId := ⟨13⟩

/-- Number of types every pool starts with. -/
def primitiveCount : Nat := 14

def ofScalar : Scalar → TypeId
  | .bool => ⟨1⟩ | .char => ⟨2⟩
  | .i8 => ⟨3⟩ | .i16 => ⟨4⟩ | .i32 => ⟨5⟩ | .i64 => ⟨6⟩
  | .u8 => ⟨7⟩ | .u16 => ⟨8⟩ | .u32 => ⟨9⟩ | .u64 => ⟨10⟩
  | .f32 => ⟨11⟩ | .f64 => ⟨12⟩

/-- The scalar kind that owns a fixed id. -/
def scalar? (t : TypeId) : Option Scalar :=
  Scalar.all.find? (ofScalar · = t)

@[simp] theorem scalar?_ofScalar (s : Scalar) : (ofScalar s).scalar? = some s := by
  cases s <;> rfl

def isPrimitive (t : TypeId) : Bool := t.index < primitiveCount

/-- The type's name where no pool is at hand. -/
def text (t : TypeId) : String :=
  if t = void then "void"
  else if t = object then "object"
  else match t.scalar? with
    | some s => s.keyword
    | none => s!"type#{t.index}"

/-- The id as diagnostics show it. -/
def label (t : TypeId) : String :=
  if t = void then "Idx::VOID"
  else if t = object then "Idx::OBJECT"
  else match t.scalar? with
    | some s => s!"Idx::{s.label}"
    | none => s!"Idx({t.index})"

end TypeId

/-- What a type is made of. -/
inductive TypeKind
  | void
  | scalar (kind : Scalar)
  | object
  | named (name : NameId)
  | pointer (pointee : TypeId)
  | array (element : TypeId)
  deriving DecidableEq

namespace TypeKind

def scalar? : TypeKind → Option Scalar
  | .scalar s => some s
  | _ => none

def pointee? : TypeKind → Option TypeId
  | .pointer t => some t
  | _ => none

def element? : TypeKind → Option TypeId
  | .array t => some t
  | _ => none

/-- Values of these types are references to the heap. -/
def isReference : TypeKind → Bool
  | .object | .named _ | .array _ => true
  | _ => false

/-- The kind as diagnostics show it. -/
def label : TypeKind → String
  | .void => "Void"
  | .scalar s => s!"Scalar({s.label})"
  | .object => "Object"
  | .named n => s!"Class \x7b name: {n.label} \x7d"
  | .pointer t => s!"Pointer \x7b pointee: {t.label} \x7d"
  | .array t => s!"Array \x7b element: {t.label} \x7d"

end TypeKind

structure Field where
  name : NameId
  owner : TypeId
  type : TypeId
  isStatic : Bool
  deriving DecidableEq

/-- How a method is called. A static call still passes an unused receiver first. -/
inductive MethodKind
  | ctor
  | ofInstance
  | ofType
  deriving DecidableEq

def MethodKind.label : MethodKind → String
  | .ctor => "Constructor"
  | .ofInstance => "Instance"
  | .ofType => "Static"

/-- The methods of a scalar wrapper that have a meaning of their own. -/
inductive WrapperMethod
  | ctor
  | equals
  | opEquality
  | opInequality
  deriving DecidableEq

/-- The wrapper method that a kind and a name stand for. -/
def WrapperMethod.of? : MethodKind → String → Option WrapperMethod
  | .ctor, ".ctor" => some .ctor
  | .ofInstance, "Equals" => some .equals
  | .ofType, "op_Equality" => some .opEquality
  | .ofType, "op_Inequality" => some .opInequality
  | _, _ => none

/-- A method; `params` starts with the receiver. -/
structure Method where
  name : NameId
  owner : TypeId
  kind : MethodKind
  params : List TypeId
  returns : TypeId
  deriving DecidableEq

/-- Number of arguments a call passes, the receiver included. -/
def Method.arity (m : Method) : Nat := m.params.length

/-- The members every scalar wrapper has. -/
structure WrapperMembers where
  value : FieldId
  ctor : MethodId
  equals : MethodId
  opEquality : MethodId
  opInequality : MethodId
  deriving DecidableEq

end ScalarLowering
