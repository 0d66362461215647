/-! The twelve scalar kinds a wrapper type can hold, with their widths and names. -/

namespace ScalarLowering

inductive Scalar
  | bool | char | i8 | i16 | i32 | i64 | u8 | u16 | u32 | u64 | f32 | f64
  deriving DecidableEq

namespace Scalar

/-- All kinds, in the order of their type ids. -/
def all : List Scalar :=
  [.bool, .char, .i8, .i16, .i32, .i64, .u8, .u16, .u32, .u64, .f32, .f64]

/-- Width of the payload in bits. -/
def bits : Scalar → Nat
  | .bool | .i8 | .u8 => 8
  | .char | .i16 | .u16 => 16
  | .i32 | .u32 | .f32 => 32
  | .i64 | .u64 | .f64 => 64

def isFloat : Scalar → Bool
  | .f32 | .f64 => true
  | _ => false

def isSigned : Scalar → Bool
  | .i8 | .i16 | .i32 | .i64 => true
  | _ => false

/-- Short name, used in diagnostics. -/
def label : Scalar → String
  | .bool => "Bool" | .char => "Char"
  | .i8 => "I8" | .i16 => "I16" | .i32 => "I32" | .i64 => "I64"
  | .u8 => "U8" | .u16 => "U16" | .u32 => "U32" | .u64 => "U64"
  | .f32 => "F32" | .f64 => "F64"

/-- The word that names the type in program text. -/
def keyword : Scalar → String
  | .bool => "bool" | .char => "char"
  | .i8 => "sbyte" | .i16 => "short" | .i32 => "int" | .i64 => "long"
  | .u8 => "byte" | .u16 => "ushort" | .u32 => "uint" | .u64 => "ulong"
  | .f32 => "float" | .f64 => "double"

/-- Name of the wrapper type in the runtime library. -/
def libraryName : Scalar → String
  | .bool => "Boolean" | .char => "Char"
  | .i8 => "SByte" | .i16 => "Int16" | .i32 => "Int32" | .i64 => "Int64"
  | .u8 => "Byte" | .u16 => "UInt16" | .u32 => "UInt32" | .u64 => "UInt64"
  | .f32 => "Single" | .f64 => "Double"

end Scalar
end ScalarLowering
