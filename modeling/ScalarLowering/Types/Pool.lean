import ScalarLowering.Types.Basic

/-! The pool of types, names, fields and methods of a program. Types and names are
interned: each of the two has a table in which a map finds what is there already, so
that asking twice for the same type or text gives the same id. Nothing is ever removed
or changed. -/

namespace ScalarLowering

/-- Entries in the order in which they came, with a map from each of them to its index. -/
structure Table (α : Type) where
  entries : Array α
  indices : List (α × Nat)
  deriving DecidableEq

namespace Table

variable {α : Type} [DecidableEq α]

def empty : Table α := ⟨#[], []⟩

def size (t : Table α) : Nat := t.entries.size

def push (t : Table α) (a : α) : Nat × Table α :=
  (t.entries.size, ⟨t.entries.push a, (a, t.entries.size) :: t.indices⟩)

/-- The index that the map has for an entry; an entry that it does not have is added. -/
def intern (t : Table α) (a : α) : Nat × Table α :=
  match t.indices.lookup a with
  | some i => (i, t)
  | none => t.push a

end Table

structure Pool where
  kinds : Table TypeKind
  names : Table String
  fields : Array Field
  methods : Array Method
  /-- The members declared so far, by wrapper type. -/
  members : List (TypeId × WrapperMembers)
  deriving DecidableEq

namespace Pool

/-- The types with fixed ids, in the order of their ids. -/
def primitives : List TypeKind := .void :: Scalar.all.map .scalar ++ [.object]

/-- The pool that holds only the types with fixed ids. -/
def new : Pool where
  kinds := primitives.foldl (fun t k => (t.push k).2) .empty
  names := .empty
  fields := #[]
  methods := #[]
  members := []

def intern (p : Pool) (kind : TypeKind) : TypeId × Pool :=
  let (i, kinds) := p.kinds.intern kind
  (⟨i⟩, { p with kinds })

def internName (p : Pool) (text : String) : NameId × Pool :=
  let (i, names) := p.names.intern text
  (⟨i⟩, { p with names })

def pointerTo (p : Pool) (t : TypeId) : TypeId × Pool := p.intern (.pointer t)

def arrayOf (p : Pool) (t : TypeId) : TypeId × Pool := p.intern (.array t)

/-- The reference type of that name. -/
def named (p : Pool) (text : String) : TypeId × Pool :=
  let (name, p) := p.internName text
  p.intern (.named name)

def addField (p : Pool) (f : Field) : FieldId × Pool :=
  (⟨p.fields.size⟩, { p with fields := p.fields.push f })

def addMethod (p : Pool) (m : Method) : MethodId × Pool :=
  (⟨p.methods.size⟩, { p with methods := p.methods.push m })

def kind (p : Pool) (t : TypeId) : Lookup TypeKind := p.kinds.entries[t.index]?

def name (p : Pool) (n : NameId) : Lookup String := p.names.entries[n.index]?

def field (p : Pool) (f : FieldId) : Lookup Field := p.fields[f.index]?

def method (p : Pool) (m : MethodId) : Lookup Method := p.methods[m.index]?

def scalarOf (p : Pool) (t : TypeId) : Lookup (Option Scalar) :=
  (p.kind t).map TypeKind.scalar?

def isScalar (p : Pool) (t : TypeId) : Lookup Bool :=
  (p.scalarOf t).map Option.isSome

/-- Whether a field belongs to a scalar wrapper, and so stands for the wrapped value. -/
def isValueField (p : Pool) (f : FieldId) : Lookup Bool := do
  p.isScalar (← p.field f).owner

def pointee (p : Pool) (t : TypeId) : Lookup (Option TypeId) :=
  (p.kind t).map TypeKind.pointee?

def element (p : Pool) (t : TypeId) : Lookup (Option TypeId) :=
  (p.kind t).map TypeKind.element?

def isReference (p : Pool) (t : TypeId) : Lookup Bool :=
  (p.kind t).map TypeKind.isReference

/-- A slot takes values of its own type; a slot of the root reference type takes every
reference. Scalars never convert. -/
def accepts (p : Pool) (slot value : TypeId) : Lookup Bool :=
  if slot = value then some true
  else if slot = TypeId.object then p.isReference value
  else some false

/-- Adds a method under a name given as text. -/
def addNamedMethod (p : Pool) (text : String) (owner : TypeId) (kind : MethodKind)
    (params : List TypeId) (returns : TypeId) : MethodId × Pool :=
  let (name, p) := p.internName text
  p.addMethod ⟨name, owner, kind, params, returns⟩

/-- Declares the value field, the constructor and the equality methods of a wrapper. -/
def addMembers (p : Pool) (t : TypeId) : WrapperMembers × Pool :=
  let bool := TypeId.ofScalar .bool
  let (this, p) := p.pointerTo t
  let (name, p) := p.internName "m_value"
  let (value, p) := p.addField ⟨name, t, t, false⟩
  let (ctor, p) := p.addNamedMethod ".ctor" t .ctor [this, t] TypeId.void
  let (equals, p) := p.addNamedMethod "Equals" t .ofInstance [this, t] bool
  let (opEquality, p) := p.addNamedMethod "op_Equality" t .ofType [t, t, t] bool
  let (opInequality, p) := p.addNamedMethod "op_Inequality" t .ofType [t, t, t] bool
  let members := ⟨value, ctor, equals, opEquality, opInequality⟩
  (members, { p with members := (t, members) :: p.members })

/-- The members of a wrapper, declared at the first request. Other types have none. -/
def wrapperMembers (p : Pool) (t : TypeId) : Lookup (Option WrapperMembers × Pool) :=
  match p.members.lookup t with
  | some members => some (some members, p)
  | none => (p.scalarOf t).map fun
    | some _ => let (members, p) := p.addMembers t; (some members, p)
    | none => (none, p)

/-- The text of a type that nests at most `depth` pointers and arrays. -/
def displayWithin (p : Pool) : Nat → TypeId → Lookup String
  | depth, t => do
    match ← p.kind t with
    | .void | .scalar _ | .object => some t.text
    | .named n => p.name n
    | .pointer u => match depth with
      | 0 => none
      | depth + 1 => return (← p.displayWithin depth u) ++ "*"
    | .array u => match depth with
      | 0 => none
      | depth + 1 => return (← p.displayWithin depth u) ++ "[]"

/-- The text of a type: its name, with a mark for each pointer and array around it.
A type nested deeper than the pool has types contains itself and has no text. -/
def display (p : Pool) (t : TypeId) : Lookup String := p.displayWithin p.kinds.size t

end Pool
end ScalarLowering
