import Mathlib.Data.List.Nodup
import Mathlib.Logic.Relation
import ScalarLowering.Types.Pool

/-! Interning. In every pool that requests build, the maps of the two tables are inverse to their
entries, and the pool grows by one entry at a time. So an id stands for the same thing for ever, two
ids stand for different things, and the scalar types are exactly those with the fixed ids. -/

namespace ScalarLowering

theorem TypeId.scalar?_eq_some {t : TypeId} {s : Scalar} : t.scalar? = some s ↔ t = ofScalar s := by
  constructor
  · intro h
    unfold scalar? at h
    exact (of_decide_eq_true (List.find?_some h :)).symm
  · rintro rfl
    exact scalar?_ofScalar s

namespace Table

variable {α : Type} [DecidableEq α] {t : Table α} {a : α} {i j : Nat}

/-- The map has exactly the entries, each with its index. -/
def Inverse (t : Table α) : Prop := ∀ a i, t.indices.lookup a = some i ↔ t.entries[i]? = some a

theorem inverse_empty : (empty : Table α).Inverse := by simp [Inverse, empty]

theorem Inverse.index_eq (h : t.Inverse) (hi : t.entries[i]? = some a) (hj : t.entries[j]? = some a) :
    i = j :=
  Option.some.inj (((h a i).mpr hi).symm.trans ((h a j).mpr hj))

theorem lookup_push (t : Table α) (a b : α) : (t.push a).2.indices.lookup b =
    if b = a then some t.entries.size else t.indices.lookup b := by
  by_cases h : b = a
  · simp [push, h]
  · simp [push, List.lookup_cons, beq_eq_false_iff_ne.mpr h, h]

theorem Inverse.push (h : t.Inverse) (hnew : t.indices.lookup a = none) : (t.push a).2.Inverse := by
  intro b i
  have habsent : t.entries[i]? ≠ some a := fun ha => by simp [(h a i).mpr ha] at hnew
  have hbound : t.entries[t.entries.size]? = none := by simp
  rw [lookup_push, show (t.push a).2.entries[i]? = (t.entries.push a)[i]? from rfl,
    Array.getElem?_push]
  by_cases hi : i = t.entries.size
  · subst hi
    by_cases hb : b = a
    · simp [hb]
    · simp [hb, h b, Ne.symm hb]
  · by_cases hb : b = a
    · subst hb
      simp [hi, Ne.symm hi, habsent]
    · simp [hb, hi, h b i]

theorem inverse_foldl_push {l : List α} (h : t.Inverse) (hl : l.Nodup)
    (hnew : ∀ a ∈ l, t.indices.lookup a = none) :
    (l.foldl (fun t a => (t.push a).2) t).Inverse := by
  induction l generalizing t with
  | nil => exact h
  | cons a l ih =>
    obtain ⟨ha, hl⟩ := List.nodup_cons.mp hl
    refine ih (h.push (hnew a List.mem_cons_self)) hl fun b hb => ?_
    have hne : b ≠ a := fun heq => ha (heq ▸ hb)
    rw [lookup_push, if_neg hne]
    exact hnew b (List.mem_cons_of_mem a hb)

theorem intern_of_lookup (h : t.indices.lookup a = some i) : t.intern a = (i, t) := by
  rw [intern, h]

theorem intern_of_none (h : t.indices.lookup a = none) : t.intern a = t.push a := by
  rw [intern, h]

theorem Inverse.intern_known (h : t.Inverse) (ha : t.entries[i]? = some a) : t.intern a = (i, t) :=
  intern_of_lookup ((h a i).mpr ha)

theorem Inverse.getElem?_intern (h : t.Inverse) (a : α) :
    (t.intern a).2.entries[(t.intern a).1]? = some a := by
  cases ha : t.indices.lookup a with
  | some i =>
    rw [intern_of_lookup ha]
    exact (h a i).mp ha
  | none =>
    rw [intern_of_none ha]
    exact Array.getElem?_push_size

end Table

namespace Pool

variable {p p' : Pool} {k : TypeKind} {t : TypeId} {Allowed : Pool → TypeKind → Prop}

inductive Request
  | intern (kind : TypeKind)
  | pointerTo (t : TypeId)
  | arrayOf (t : TypeId)
  | named (text : String)
  | internName (text : String)
  | addField (f : Field)
  | addMethod (m : Method)
  | wrapperMembers (t : TypeId)

/-- The pool after a request. The members of an unknown type cannot be asked for. -/
def Request.apply : Request → Pool → Pool
  | .intern kind, p => (p.intern kind).2
  | .pointerTo t, p => (p.pointerTo t).2
  | .arrayOf t, p => (p.arrayOf t).2
  | .named text, p => (p.named text).2
  | .internName text, p => (p.internName text).2
  | .addField f, p => (p.addField f).2
  | .addMethod m, p => (p.addMethod m).2
  | .wrapperMembers t, p => (p.wrapperMembers t).elim p (·.2)

def served (p : Pool) (requests : List Request) : Pool := requests.foldl (fun p r => r.apply p) p

def Request.Passes (Allowed : Pool → TypeKind → Prop) (p : Pool) : Request → Prop
  | .intern kind => Allowed p kind
  | .pointerTo t => Allowed p (.pointer t)
  | .arrayOf t => Allowed p (.array t)
  | _ => True

/-- The pools that requests can build where the kinds they name pass a test. -/
inductive BuiltBy (Allowed : Pool → TypeKind → Prop) : Pool → Prop
  | new : BuiltBy Allowed new
  | request {p : Pool} {r : Request} : BuiltBy Allowed p → r.Passes Allowed p →
    BuiltBy Allowed (r.apply p)

/-- The pools that any requests can build. -/
def Built : Pool → Prop := BuiltBy fun _ _ => True

theorem Built.request (hp : p.Built) (r : Request) : (r.apply p).Built :=
  BuiltBy.request hp (by cases r <;> exact .intro)

theorem Built.served {p : Pool} (hp : p.Built) (requests : List Request) :
    (p.served requests).Built := by
  induction requests generalizing p with
  | nil => exact hp
  | cons r requests ih => exact ih (hp.request r)

/-- The method has a name with that text, and is as given otherwise. -/
def HasMethod (p : Pool) (m : MethodId) (text : String) (owner : TypeId) (kind : MethodKind)
    (params : List TypeId) (returns : TypeId) : Prop :=
  ∃ name, p.name name = some text ∧ p.method m = some ⟨name, owner, kind, params, returns⟩

/-- The members of the wrapper are in the pool. -/
structure Declares (p : Pool) (t : TypeId) (m : WrapperMembers) : Prop where
  value : ∃ name, p.name name = some "m_value" ∧ p.field m.value = some ⟨name, t, t, false⟩
  ctor : ∃ this, p.kind this = some (.pointer t) ∧
    p.HasMethod m.ctor ".ctor" t .ctor [this, t] .void
  equals : ∃ this, p.kind this = some (.pointer t) ∧
    p.HasMethod m.equals "Equals" t .ofInstance [this, t] (.ofScalar .bool)
  opEquality : p.HasMethod m.opEquality "op_Equality" t .ofType [t, t, t] (.ofScalar .bool)
  opInequality : p.HasMethod m.opInequality "op_Inequality" t .ofType [t, t, t] (.ofScalar .bool)

/-- One entry is added: a type or a name that its map does not have, a field, a method, or the
members of a scalar type that has none. -/
inductive Step (Allowed : Pool → TypeKind → Prop) (p : Pool) : Pool → Prop
  | kind {k : TypeKind} : Allowed p k → p.kinds.indices.lookup k = none →
    Step Allowed p { p with kinds := (p.kinds.push k).2 }
  | name {text : String} : p.names.indices.lookup text = none →
    Step Allowed p { p with names := (p.names.push text).2 }
  | field (f : Field) : Step Allowed p { p with fields := p.fields.push f }
  | method (m : Method) : Step Allowed p { p with methods := p.methods.push m }
  | members {t : TypeId} {s : Scalar} {m : WrapperMembers} : p.kind t = some (.scalar s) →
    p.members.lookup t = none → p.Declares t m →
    Step Allowed p { p with members := (t, m) :: p.members }

abbrev Steps (Allowed : Pool → TypeKind → Prop) : Pool → Pool → Prop :=
  Relation.ReflTransGen (Step Allowed)

/-- What a kind is made of is in the pool. -/
def Knows (p : Pool) : TypeKind → Prop
  | .void | .scalar _ | .object => True
  | .named n => n.index < p.names.size
  | .pointer t | .array t => t.index < p.kinds.size

theorem kind_eq_some_lt (h : p.kind t = some k) : t.index < p.kinds.size :=
  (Array.getElem?_eq_some_iff.mp h).1

theorem exists_kind (h : t.index < p.kinds.size) : ∃ k, p.kind t = some k :=
  ⟨_, Array.getElem?_eq_getElem h⟩

/-- Every id that is known stands for the same as before, and declared members stay. -/
structure Keeps (p p' : Pool) : Prop where
  kind : ∀ {t k}, p.kind t = some k → p'.kind t = some k
  name : ∀ {n text}, p.name n = some text → p'.name n = some text
  field : ∀ {f info}, p.field f = some info → p'.field f = some info
  method : ∀ {m info}, p.method m = some info → p'.method m = some info
  members : ∀ {t m}, p.members.lookup t = some m → p'.members.lookup t = some m

theorem Keeps.refl (p : Pool) : p.Keeps p :=
  ⟨fun h => h, fun h => h, fun h => h, fun h => h, fun h => h⟩

theorem Keeps.trans {p'' : Pool} (h : p.Keeps p') (h' : p'.Keeps p'') : p.Keeps p'' where
  kind := fun ht => h'.kind (h.kind ht)
  name := fun hn => h'.name (h.name hn)
  field := fun hf => h'.field (h.field hf)
  method := fun hm => h'.method (h.method hm)
  members := fun ht => h'.members (h.members ht)

theorem Keeps.hasMethod {m : MethodId} {text : String} {owner returns : TypeId} {kind : MethodKind}
    {params : List TypeId} (h : p.Keeps p') (hm : p.HasMethod m text owner kind params returns) :
    p'.HasMethod m text owner kind params returns := by
  obtain ⟨name, hname, hmethod⟩ := hm
  exact ⟨name, h.name hname, h.method hmethod⟩

theorem Keeps.declares {m : WrapperMembers} (h : p.Keeps p') (hm : p.Declares t m) :
    p'.Declares t m where
  value := hm.value.imp fun _ hvalue => ⟨h.name hvalue.1, h.field hvalue.2⟩
  ctor := hm.ctor.imp fun _ hctor => ⟨h.kind hctor.1, h.hasMethod hctor.2⟩
  equals := hm.equals.imp fun _ hequals => ⟨h.kind hequals.1, h.hasMethod hequals.2⟩
  opEquality := h.hasMethod hm.opEquality
  opInequality := h.hasMethod hm.opInequality

theorem getElem?_push_of_some {α : Type} {xs : Array α} {i : Nat} {a : α} (b : α)
    (h : xs[i]? = some a) : (xs.push b)[i]? = some a := by
  obtain ⟨hlt, rfl⟩ := Array.getElem?_eq_some_iff.mp h
  exact Array.getElem?_push_lt hlt

theorem lookup_cons_of_none {u : TypeId} {m w : WrapperMembers} (hnone : p.members.lookup t = none)
    (hu : p.members.lookup u = some w) : ((t, m) :: p.members).lookup u = some w := by
  have hne : u ≠ t := by
    rintro rfl
    simp [hnone] at hu
  simpa [List.lookup_cons, beq_eq_false_iff_ne.mpr hne] using hu

theorem Step.keeps (h : Step Allowed p p') : p.Keeps p' := by
  cases h with
  | kind _ _ => exact { Keeps.refl p with kind := getElem?_push_of_some _ }
  | name _ => exact { Keeps.refl p with name := getElem?_push_of_some _ }
  | field f => exact { Keeps.refl p with field := getElem?_push_of_some _ }
  | method m => exact { Keeps.refl p with method := getElem?_push_of_some _ }
  | members _ hnone _ => exact { Keeps.refl p with members := lookup_cons_of_none hnone }

theorem Steps.keeps (h : Steps Allowed p p') : p.Keeps p' := by
  induction h with
  | refl => exact .refl p
  | tail _ h ih => exact ih.trans h.keeps

/-- What holds of every pool that requests build. -/
structure Sound (p : Pool) : Prop where
  kinds : p.kinds.Inverse
  names : p.names.Inverse
  scalars : ∀ s, p.kind (.ofScalar s) = some (.scalar s)
  members : ∀ {t m}, p.members.lookup t = some m →
    (∃ s, p.kind t = some (.scalar s)) ∧ p.Declares t m

theorem sound_new : new.Sound where
  kinds := Table.inverse_foldl_push Table.inverse_empty (by decide) fun _ _ => rfl
  names := Table.inverse_empty
  scalars := fun s => by cases s <;> rfl
  members := fun h => by cases h

theorem Sound.step (hp : p.Sound) (h : Step Allowed p p') : p'.Sound := by
  have hkeeps := h.keeps
  have hscalars := fun s => hkeeps.kind (hp.scalars s)
  have hmembers : ∀ {t m}, p.members.lookup t = some m →
      (∃ s, p'.kind t = some (.scalar s)) ∧ p'.Declares t m := by
    intro t m ht
    obtain ⟨⟨s, hs⟩, hdeclares⟩ := hp.members ht
    exact ⟨⟨s, hkeeps.kind hs⟩, hkeeps.declares hdeclares⟩
  cases h with
  | kind _ hnew => exact ⟨hp.kinds.push hnew, hp.names, hscalars, hmembers⟩
  | name hnew => exact ⟨hp.kinds, hp.names.push hnew, hscalars, hmembers⟩
  | field f => exact ⟨hp.kinds, hp.names, hscalars, hmembers⟩
  | method m => exact ⟨hp.kinds, hp.names, hscalars, hmembers⟩
  | @members t s m hkind _ hdeclares =>
    refine ⟨hp.kinds, hp.names, hscalars, fun {u w} hu => ?_⟩
    by_cases hut : u = t
    · subst hut
      obtain rfl : m = w := by simpa using hu
      exact ⟨⟨s, hkind⟩, hkeeps.declares hdeclares⟩
    · exact hmembers (by simpa [List.lookup_cons, beq_eq_false_iff_ne.mpr hut] using hu)

theorem Sound.steps (hp : p.Sound) (h : Steps Allowed p p') : p'.Sound := by
  induction h with
  | refl => exact hp
  | tail _ h ih => exact ih.step h

theorem Sound.kind_intern (hp : p.Sound) (k : TypeKind) :
    (p.intern k).2.kind (p.intern k).1 = some k :=
  hp.kinds.getElem?_intern k

theorem Sound.name_internName (hp : p.Sound) (text : String) :
    (p.internName text).2.name (p.internName text).1 = some text :=
  hp.names.getElem?_intern text

theorem steps_intern (h : Allowed p k) : Steps Allowed p (p.intern k).2 := by
  cases hk : p.kinds.indices.lookup k with
  | some i =>
    rw [intern, Table.intern_of_lookup hk]
  | none =>
    rw [intern, Table.intern_of_none hk]
    exact .single (.kind h hk)

theorem steps_internName (p : Pool) (text : String) : Steps Allowed p (p.internName text).2 := by
  cases htext : p.names.indices.lookup text with
  | some i =>
    rw [internName, Table.intern_of_lookup htext]
  | none =>
    rw [internName, Table.intern_of_none htext]
    exact .single (.name htext)

structure Grows (Allowed : Pool → TypeKind → Prop) (p p' : Pool) : Prop where
  steps : Steps Allowed p p'
  members : p'.members = p.members

theorem Grows.trans {p'' : Pool} (h : Grows Allowed p p') (h' : Grows Allowed p' p'') :
    Grows Allowed p p'' :=
  ⟨h.steps.trans h'.steps, h'.members.trans h.members⟩

theorem Grows.keeps (h : Grows Allowed p p') : p.Keeps p' := Steps.keeps h.steps

theorem Sound.exists_intern (hp : p.Sound) (h : Allowed p k) :
    ∃ t p', p.intern k = (t, p') ∧ Grows Allowed p p' ∧ p'.kind t = some k :=
  ⟨_, _, rfl, ⟨steps_intern h, rfl⟩, hp.kind_intern k⟩

variable (Allowed) in
theorem Sound.exists_internName (hp : p.Sound) (text : String) :
    ∃ n p', p.internName text = (n, p') ∧ Grows Allowed p p' ∧ p'.name n = some text :=
  ⟨_, _, rfl, ⟨steps_internName p text, rfl⟩, hp.name_internName text⟩

variable (Allowed) in
theorem exists_addField (p : Pool) (field : Field) :
    ∃ f p', p.addField field = (f, p') ∧ Grows Allowed p p' ∧ p'.field f = some field :=
  ⟨_, _, rfl, ⟨.single (.field field), rfl⟩, Array.getElem?_push_size⟩

variable (Allowed) in
theorem Sound.exists_addNamedMethod (hp : p.Sound) (text : String) (owner : TypeId)
    (kind : MethodKind) (params : List TypeId) (returns : TypeId) :
    ∃ m p', p.addNamedMethod text owner kind params returns = (m, p') ∧ Grows Allowed p p' ∧
      p'.HasMethod m text owner kind params returns :=
  ⟨_, _, rfl, ⟨(steps_internName p text).tail (.method _), rfl⟩, (p.internName text).1,
    hp.name_internName text, Array.getElem?_push_size⟩

/-- The members of a wrapper are added after the entries that they name. -/
theorem Sound.steps_addMembers {s : Scalar} (hp : p.Sound) (h : Allowed p (.pointer t))
    (hkind : p.kind t = some (.scalar s)) (hnone : p.members.lookup t = none) :
    Steps Allowed p (p.addMembers t).2 := by
  obtain ⟨this, p₁, hthis, g₁, hpointer⟩ := hp.exists_intern h
  have hp₁ := hp.steps g₁.steps
  obtain ⟨name, p₂, hname, g₂, htext⟩ := hp₁.exists_internName Allowed "m_value"
  obtain ⟨value, p₃, hvalue, g₃, hfield⟩ := exists_addField Allowed p₂ ⟨name, t, t, false⟩
  have hp₃ := hp₁.steps (g₂.trans g₃).steps
  obtain ⟨ctor, p₄, hctor, g₄, hmethod₄⟩ :=
    hp₃.exists_addNamedMethod Allowed ".ctor" t .ctor [this, t] TypeId.void
  have hp₄ := hp₃.steps g₄.steps
  obtain ⟨equals, p₅, hequals, g₅, hmethod₅⟩ :=
    hp₄.exists_addNamedMethod Allowed "Equals" t .ofInstance [this, t] (.ofScalar .bool)
  have hp₅ := hp₄.steps g₅.steps
  obtain ⟨opEquality, p₆, hopEquality, g₆, hmethod₆⟩ :=
    hp₅.exists_addNamedMethod Allowed "op_Equality" t .ofType [t, t, t] (.ofScalar .bool)
  have hp₆ := hp₅.steps g₆.steps
  obtain ⟨opInequality, p₇, hopInequality, g₇, hmethod₇⟩ :=
    hp₆.exists_addNamedMethod Allowed "op_Inequality" t .ofType [t, t, t] (.ofScalar .bool)
  have hmembers : p.addMembers t =
      (⟨value, ctor, equals, opEquality, opInequality⟩, { p₇ with
        members := (t, ⟨value, ctor, equals, opEquality, opInequality⟩) :: p₇.members }) := by
    simp only [addMembers, pointerTo, hthis, hname, hvalue, hctor, hequals, hopEquality,
      hopInequality]
  have g₅₇ := g₆.trans g₇
  have g₄₇ := g₅.trans g₅₇
  have g₃₇ := g₄.trans g₄₇
  have g₂₇ := g₃.trans g₃₇
  have g₁₇ := g₂.trans g₂₇
  have g := g₁.trans g₁₇
  have hdeclares : p₇.Declares t ⟨value, ctor, equals, opEquality, opInequality⟩ :=
    { value := ⟨name, g₂₇.keeps.name htext, g₃₇.keeps.field hfield⟩
      ctor := ⟨this, g₁₇.keeps.kind hpointer, g₄₇.keeps.hasMethod hmethod₄⟩
      equals := ⟨this, g₁₇.keeps.kind hpointer, g₅₇.keeps.hasMethod hmethod₅⟩
      opEquality := g₇.keeps.hasMethod hmethod₆
      opInequality := hmethod₇ }
  rw [hmembers]
  exact g.steps.tail (.members (g.keeps.kind hkind) (g.members ▸ hnone) hdeclares)

theorem Sound.steps_wrapperMembers {answer : Option WrapperMembers} (hp : p.Sound)
    (hallowed : ∀ {p k}, p.Knows k → Allowed p k) (h : p.wrapperMembers t = some (answer, p')) :
    Steps Allowed p p' := by
  unfold wrapperMembers at h
  cases hmembers : p.members.lookup t with
  | some m =>
    rw [hmembers] at h
    cases h
    exact .refl
  | none =>
    rw [hmembers] at h
    obtain ⟨scalar, hscalar, h⟩ := Option.map_eq_some_iff.mp h
    obtain ⟨k, hk, rfl⟩ := Option.map_eq_some_iff.mp hscalar
    cases k with
    | scalar s =>
      cases h
      exact hp.steps_addMembers (hallowed (kind_eq_some_lt hk)) hk hmembers
    | _ =>
      cases h
      exact .refl

theorem Sound.steps_request (hp : p.Sound) (hallowed : ∀ {p k}, p.Knows k → Allowed p k)
    {r : Request} (hr : r.Passes Allowed p) : Steps Allowed p (r.apply p) := by
  cases r with
  | intern kind => exact steps_intern hr
  | pointerTo t => exact steps_intern hr
  | arrayOf t => exact steps_intern hr
  | named text =>
    have hname := hp.name_internName text
    exact (steps_internName p text).trans
      (steps_intern (hallowed (Array.getElem?_eq_some_iff.mp hname).1))
  | internName text => exact steps_internName p text
  | addField f => exact .single (.field f)
  | addMethod m => exact .single (.method m)
  | wrapperMembers t =>
    cases h : p.wrapperMembers t with
    | none =>
      simp only [Request.apply, h, Option.elim_none]
      exact .refl
    | some answer =>
      simp only [Request.apply, h, Option.elim_some]
      exact hp.steps_wrapperMembers hallowed h

theorem BuiltBy.steps (hallowed : ∀ {p k}, p.Knows k → Allowed p k) (hp : p.BuiltBy Allowed) :
    Steps Allowed Pool.new p := by
  induction hp with
  | new => exact .refl
  | request _ hr ih => exact ih.trans ((sound_new.steps ih).steps_request hallowed hr)

/-- What holds of the first pool and is kept by every step holds of all that requests build. -/
theorem BuiltBy.invariant {Holds : Pool → Prop} (hallowed : ∀ {p k}, p.Knows k → Allowed p k)
    (hnew : Holds Pool.new) (hstep : ∀ {p p'}, Holds p → Step Allowed p p' → Holds p')
    (hp : p.BuiltBy Allowed) : Holds p := by
  have hsteps := hp.steps hallowed
  clear hp
  induction hsteps with
  | refl => exact hnew
  | tail _ h ih => exact hstep ih h

theorem Built.sound (hp : p.Built) : p.Sound :=
  BuiltBy.invariant (fun _ => .intro) sound_new Sound.step hp

theorem Built.keeps_served (hp : p.Built) (requests : List Request) :
    p.Keeps (p.served requests) := by
  induction requests generalizing p with
  | nil => exact .refl p
  | cons r requests ih =>
    have hstep : Steps (fun _ _ => True) p (r.apply p) :=
      hp.sound.steps_request (fun _ => .intro) (by cases r <;> exact .intro)
    exact hstep.keeps.trans (ih (hp.request r))

theorem Sound.typeId_eq (hp : p.Sound) {u : TypeId} (ht : p.kind t = some k)
    (hu : p.kind u = some k) : t = u :=
  TypeId.ext (hp.kinds.index_eq ht hu)

theorem Sound.nameId_eq (hp : p.Sound) {m n : NameId} {text : String} (hm : p.name m = some text)
    (hn : p.name n = some text) : m = n :=
  NameId.ext (hp.names.index_eq hm hn)

theorem Sound.intern_of_kind (hp : p.Sound) (h : p.kind t = some k) : p.intern k = (t, p) := by
  rw [intern, hp.kinds.intern_known h]

theorem Sound.internName_of_name (hp : p.Sound) {n : NameId} {text : String}
    (h : p.name n = some text) : p.internName text = (n, p) := by
  rw [internName, hp.names.intern_known h]

theorem Sound.scalarOf_eq (hp : p.Sound) (ht : t.index < p.kinds.size) :
    p.scalarOf t = some t.scalar? := by
  obtain ⟨k, hk⟩ := exists_kind ht
  rw [scalarOf, hk, Option.map_some, Option.some_inj]
  refine Option.ext fun s => ?_
  rw [TypeId.scalar?_eq_some]
  constructor
  · intro hs
    cases k with
    | scalar s' =>
      cases hs
      exact hp.typeId_eq hk (hp.scalars s)
    | _ => cases hs
  · rintro rfl
    rw [hp.scalars s] at hk
    cases hk
    rfl

theorem wrapperMembers_of_lookup {m : WrapperMembers} (h : p.members.lookup t = some m) :
    p.wrapperMembers t = some (some m, p) := by
  rw [wrapperMembers, h]

theorem Sound.wrapperMembers_of_kind (hp : p.Sound) (hk : p.kind t = some k)
    (hscalar : k.scalar? = none) : p.wrapperMembers t = some (none, p) := by
  have hnone : p.members.lookup t = none := by
    refine Option.eq_none_iff_forall_ne_some.mpr fun m hm => ?_
    obtain ⟨⟨s, hs⟩, -⟩ := hp.members hm
    rw [hk] at hs
    cases hs
    cases hscalar
  rw [wrapperMembers, hnone, scalarOf, hk, Option.map_some, hscalar, Option.map_some]

/-- A request for members leaves them in the pool, and every later one is answered by them. -/
theorem Built.wrapperMembers_lasts (hp : p.Built) (ht : t.index < p.kinds.size) :
    ∃ answer p', p.wrapperMembers t = some (answer, p') ∧ answer.isSome = t.scalar?.isSome ∧
      (∀ m, answer = some m → p'.Declares t m) ∧ ∀ requests,
        (p'.served requests).wrapperMembers t = some (answer, p'.served requests) := by
  obtain ⟨k, hk⟩ := exists_kind ht
  have hscalar : k.scalar? = t.scalar? := by
    simpa [scalarOf, hk] using hp.sound.scalarOf_eq ht
  cases hs : t.scalar? with
  | none =>
    rw [hs] at hscalar
    refine ⟨none, p, hp.sound.wrapperMembers_of_kind hk hscalar, rfl, nofun, fun requests => ?_⟩
    exact (hp.served requests).sound.wrapperMembers_of_kind ((hp.keeps_served requests).kind hk) hscalar
  | some s =>
    rw [hs] at hscalar
    obtain ⟨m, p', hfirst, hp', hm⟩ : ∃ m p', p.wrapperMembers t = some (some m, p') ∧ p'.Built ∧
        p'.members.lookup t = some m := by
      have hrequest := hp.request (.wrapperMembers t)
      cases hm : p.members.lookup t with
      | some m => exact ⟨m, p, wrapperMembers_of_lookup hm, hp, hm⟩
      | none =>
        have hfirst : p.wrapperMembers t = some (some (p.addMembers t).1, (p.addMembers t).2) := by
          rw [wrapperMembers, hm, scalarOf, hk, Option.map_some, hscalar, Option.map_some]
        refine ⟨_, _, hfirst, ?_, List.lookup_cons_self⟩
        simpa [Request.apply, hfirst] using hrequest
    refine ⟨some m, p', hfirst, rfl, ?_, fun requests => ?_⟩
    · rintro _ ⟨⟩
      exact (hp'.sound.members hm).2
    · exact wrapperMembers_of_lookup ((hp'.keeps_served requests).members hm)

/-- The maps are inverse to the entries, so that ids and what they stand for belong together one to
one, and asking for what is there gives its id and adds nothing. -/
structure Canonical (p : Pool) : Prop where
  kinds_inverse : p.kinds.Inverse
  names_inverse : p.names.Inverse
  typeId_eq_iff : ∀ {t u : TypeId}, t.index < p.kinds.size → u.index < p.kinds.size →
    (t = u ↔ p.kind t = p.kind u)
  nameId_eq_iff : ∀ {m n : NameId}, m.index < p.names.size → n.index < p.names.size →
    (m = n ↔ p.name m = p.name n)
  kind_intern : ∀ k, (p.intern k).2.kind (p.intern k).1 = some k
  name_internName : ∀ text, (p.internName text).2.name (p.internName text).1 = some text
  intern_known : ∀ {t k}, p.kind t = some k → p.intern k = (t, p)
  internName_known : ∀ {n text}, p.name n = some text → p.internName text = (n, p)
  named_known : ∀ {t n text}, p.name n = some text → p.kind t = some (.named n) →
    p.named text = (t, p)

theorem Sound.canonical (hp : p.Sound) : p.Canonical where
  kinds_inverse := hp.kinds
  names_inverse := hp.names
  typeId_eq_iff := fun {t u} ht _ => by
    obtain ⟨k, hk⟩ := exists_kind ht
    exact ⟨fun h => h ▸ rfl, fun h => hp.typeId_eq hk (h ▸ hk)⟩
  nameId_eq_iff := fun {m n} hm _ => by
    have htext : p.name m = some p.names.entries[m.index] := Array.getElem?_eq_getElem hm
    exact ⟨fun h => h ▸ rfl, fun h => hp.nameId_eq htext (h ▸ htext)⟩
  kind_intern := hp.kind_intern
  name_internName := hp.name_internName
  intern_known := hp.intern_of_kind
  internName_known := hp.internName_of_name
  named_known := fun hn ht => by
    rw [named, hp.internName_of_name hn]
    exact hp.intern_of_kind ht

/-- Interning is canonical and stable in every pool that requests build: no later request changes
what an id stands for, the scalar types can be told without the pool, and the scalar types have the
members of their first declaration, which are in the pool, ever after. -/
theorem interning_canonical {p : Pool} (hp : p.Built) :
    p.Canonical ∧ (∀ requests, p.Keeps (p.served requests)) ∧
      (∀ t : TypeId, t.index < p.kinds.size → p.scalarOf t = some t.scalar?) ∧
      ∀ t : TypeId, t.index < p.kinds.size → ∃ answer p', p.wrapperMembers t = some (answer, p') ∧
        answer.isSome = t.scalar?.isSome ∧ (∀ m, answer = some m → p'.Declares t m) ∧
        ∀ requests, (p'.served requests).wrapperMembers t = some (answer, p'.served requests) :=
  ⟨hp.sound.canonical, hp.keeps_served, fun _ => hp.sound.scalarOf_eq,
    fun _ => hp.wrapperMembers_lasts⟩

/-- A class, its pointer and the members of a wrapper, which need a pointer of their own. -/
def samplePool : Pool :=
  new.served [.named "C", .pointerTo ⟨14⟩, .wrapperMembers (.ofScalar .i32)]

theorem interning_canonical_samplePool : samplePool.named "C" = (⟨14⟩, samplePool) ∧
    samplePool.intern (.pointer (.ofScalar .i32)) = (⟨16⟩, samplePool) ∧
    samplePool.scalarOf ⟨16⟩ = some none ∧ samplePool.scalarOf ⟨5⟩ = some (some .i32) ∧
    ∃ m p', samplePool.wrapperMembers ⟨1⟩ = some (some m, p') ∧ p'.Declares ⟨1⟩ m ∧
      (p'.served [.arrayOf ⟨16⟩, .internName "Equals"]).wrapperMembers ⟨1⟩ =
        some (some m, p'.served [.arrayOf ⟨16⟩, .internName "Equals"]) := by
  have hbuilt : samplePool.Built := Built.served .new _
  have hname : samplePool.name ⟨0⟩ = some "C" := by decide +kernel
  obtain ⟨hcanonical, -, hscalar, hmembers⟩ := interning_canonical hbuilt
  obtain ⟨answer, p', hfirst, hsome, hdeclares, hlasts⟩ := hmembers ⟨1⟩ (by decide +kernel)
  obtain ⟨m, rfl⟩ := Option.isSome_iff_exists.mp hsome
  exact ⟨hcanonical.named_known hname (by decide +kernel), hcanonical.intern_known (by decide +kernel),
    hscalar ⟨16⟩ (by decide +kernel), hscalar ⟨5⟩ (by decide +kernel), m, p', hfirst,
    hdeclares m rfl, hlasts _⟩

end Pool
end ScalarLowering
