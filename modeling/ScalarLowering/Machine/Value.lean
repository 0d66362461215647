import ScalarLowering.Program.Expr

/-! Values at run time, the places a pointer can point at, and the heap. -/

namespace ScalarLowering

inductive Location
  | var (v : VarId)
  | field (object : Nat) (field : FieldId)
  | static (field : FieldId)
  | element (array index : Nat)
  deriving DecidableEq

inductive Value
  /-- Never written. -/
  | undefined
  | bits (word : UInt64)
  | null
  | pointer (target : Location)
  | object (index : Nat)
  | array (index : Nat)
  deriving DecidableEq

def Location.label : Location → String
  | .var v => s!"Var({v.label})"
  | .field object f => s!"Field \x7b object: {object}, field: {f.label} \x7d"
  | .static f => s!"Static({f.label})"
  | .element array i => s!"Element \x7b array: {array}, index: {i} \x7d"

namespace Value

def ofInt (n : Int64) : Value := .bits n.toUInt64

def ofBool (b : Bool) : Value := .bits b.toUInt64

def ofConstant (c : Constant) : Value :=
  match c.value with
  | .int n => ofInt n
  | .float word => .bits word
  | .bool b => ofBool b
  | .null => .null

/-- The value as diagnostics show it. -/
def label : Value → String
  | .undefined => "Undef"
  | .bits w => s!"Bits({w.toNat})"
  | .null => "Null"
  | .pointer l => s!"Ptr({l.label})"
  | .object n => s!"Object({n})"
  | .array n => s!"Array({n})"

end Value

/-- The values of fields; a field that has no entry was never written. -/
structure Fields where
  entries : List (FieldId × Value) := []
  deriving DecidableEq

namespace Fields

def get (fs : Fields) (f : FieldId) : Value := (fs.entries.lookup f).getD .undefined

/-- Writes an entry in place, or adds it at the end. -/
def write : List (FieldId × Value) → FieldId → Value → List (FieldId × Value)
  | [], f, v => [(f, v)]
  | (e, w) :: entries, f, v =>
    if e = f then (e, v) :: entries else (e, w) :: write entries f v

def set (fs : Fields) (f : FieldId) (v : Value) : Fields := ⟨write fs.entries f v⟩

theorem lookup_write (entries : List (FieldId × Value)) (f e : FieldId) (v : Value) :
    (write entries f v).lookup e = if e = f then some v else entries.lookup e := by
  induction entries with
  | nil => by_cases h : e = f <;> simp [write, List.lookup_cons, h, beq_eq_false_iff_ne.mpr]
  | cons head entries ih =>
    obtain ⟨d, w⟩ := head
    by_cases hd : d = f
    · subst hd
      by_cases h : e = d <;> simp [write, List.lookup_cons, h, beq_eq_false_iff_ne.mpr]
    · by_cases h : e = d
      · subst h
        simp [write, hd]
      · simp [write, List.lookup_cons, hd, h, beq_eq_false_iff_ne.mpr, ih]

theorem get_set (fs : Fields) (f e : FieldId) (v : Value) :
    (fs.set f v).get e = if e = f then v else fs.get e := by
  by_cases h : e = f <;> simp [get, set, lookup_write, h]

end Fields

structure Heap where
  objects : Array Fields := #[]
  arrays : Array (Array Value) := #[]
  statics : Fields := {}
  deriving DecidableEq

namespace Heap

def empty : Heap := {}

def allocObject (h : Heap) : Value × Heap :=
  (.object h.objects.size, { h with objects := h.objects.push {} })

def allocArray (h : Heap) (elements : Array Value) : Value × Heap :=
  (.array h.arrays.size, { h with arrays := h.arrays.push elements })

def field (h : Heap) (object : Nat) (f : FieldId) : Lookup Value :=
  h.objects[object]?.map (·.get f)

def setField (h : Heap) (object : Nat) (f : FieldId) (v : Value) : Lookup Heap :=
  h.objects[object]?.map fun _ =>
    { h with objects := h.objects.modify object (·.set f v) }

def static (h : Heap) (f : FieldId) : Value := h.statics.get f

def setStatic (h : Heap) (f : FieldId) (v : Value) : Heap :=
  { h with statics := h.statics.set f v }

def elements (h : Heap) (array : Nat) : Lookup (Array Value) := h.arrays[array]?

def element (h : Heap) (array index : Nat) : Lookup Value :=
  (h.elements array).bind (·[index]?)

def setElement (h : Heap) (array index : Nat) (v : Value) : Lookup Heap :=
  (h.element array index).map fun _ =>
    { h with arrays := h.arrays.modify array (·.setIfInBounds index v) }

end Heap
end ScalarLowering
