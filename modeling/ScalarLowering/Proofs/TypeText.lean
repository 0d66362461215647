import ScalarLowering.Proofs.Interning

/-! The text of types. In a pool where every new type is made of what is there already, pointers and
arrays come after the types they are made of. Going from a type to what it is made of comes to an end
then, at a type whose text the others build on with a mark for each layer. -/

namespace ScalarLowering

inductive Layer
  | pointer
  | array
  deriving DecidableEq

namespace Layer

def wrap : Layer → TypeId → TypeKind
  | .pointer, t => .pointer t
  | .array, t => .array t

def mark : Layer → String
  | .pointer => "*"
  | .array => "[]"

def marks (layers : List Layer) : String := String.join (layers.map mark)

@[simp] theorem marks_nil : marks [] = "" := rfl

theorem marks_concat (layers : List Layer) (l : Layer) :
    marks (layers ++ [l]) = marks layers ++ l.mark := by
  simp [marks, String.join]

end Layer

namespace Pool

variable {p p' : Pool} {k : TypeKind} {t u : TypeId} {l : Layer}

/-- The pools built by requests that only name types and names which are there. -/
def BuiltUp : Pool → Prop := BuiltBy Knows

/-- What a type is made of comes before it. -/
structure Grounded (p : Pool) : Prop where
  layer : ∀ {t u : TypeId} {l : Layer}, p.kind t = some (l.wrap u) → u.index < t.index
  named : ∀ {t : TypeId} {n : NameId}, p.kind t = some (.named n) → n.index < p.names.size

theorem mem_primitives_of_kind_new (h : new.kind t = some k) : k ∈ primitives := by
  have hentries : new.kinds.entries = primitives.toArray := rfl
  simpa [hentries] using Array.mem_of_getElem? h

theorem grounded_new : new.Grounded where
  layer := fun {t u l} h => by
    have hmem := mem_primitives_of_kind_new h
    cases l <;> simp [primitives, Layer.wrap] at hmem
  named := fun h => by simpa [primitives] using mem_primitives_of_kind_new h

theorem Knows.lt_of_wrap (h : p.Knows (l.wrap t)) : t.index < p.kinds.size := by
  cases l <;> exact h

/-- The type that is added is made of what was there; all others are as they were. -/
theorem Grounded.step (hp : p.Grounded) (h : Step Knows p p') : p'.Grounded := by
  cases h with
  | @kind k hknown _ =>
    have hcases : ∀ {t k'}, (p.kinds.entries.push k)[t]? = some k' →
        p.kind ⟨t⟩ = some k' ∨ t = p.kinds.size ∧ k' = k := by
      intro t k' ht
      rw [Array.getElem?_push] at ht
      split at ht
      · exact .inr ⟨‹_›, (Option.some.inj ht).symm⟩
      · exact .inl ht
    constructor
    · intro t u l ht
      obtain ht | ⟨ht, hk⟩ := hcases ht
      · exact hp.layer ht
      · rw [ht]
        exact (hk ▸ hknown).lt_of_wrap
    · intro t n ht
      obtain ht | ⟨-, hk⟩ := hcases ht
      · exact hp.named ht
      · exact (hk ▸ hknown : p.Knows (.named n))
  | name _ =>
    refine ⟨hp.layer, fun ht => ?_⟩
    exact Nat.lt_of_lt_of_le (hp.named ht) (by simp [Table.push, Table.size])
  | field f => exact ⟨hp.layer, hp.named⟩
  | method m => exact ⟨hp.layer, hp.named⟩
  | members m _ _ => exact ⟨hp.layer, hp.named⟩

theorem BuiltUp.grounded (hp : p.BuiltUp) : p.Grounded :=
  BuiltBy.invariant (fun h => h) grounded_new Grounded.step hp

/-- The type is `core` with layers around it, the innermost first. -/
inductive Layered (p : Pool) (core : TypeId) : List Layer → TypeId → Prop
  | core : Layered p core [] core
  | wrap {layers : List Layer} {l : Layer} {u t : TypeId} : Layered p core layers u →
    p.kind t = some (l.wrap u) → Layered p core (layers ++ [l]) t

def IsCore (p : Pool) (t : TypeId) : Prop := p.pointee t = some none ∧ p.element t = some none

theorem layer_or_core (hk : p.kind t = some k) : (∃ l u, k = Layer.wrap l u) ∨ p.IsCore t := by
  cases k with
  | pointer u => exact .inl ⟨.pointer, u, rfl⟩
  | array u => exact .inl ⟨.array, u, rfl⟩
  | _ => exact .inr ⟨by rw [pointee, hk]; rfl, by rw [element, hk]; rfl⟩

theorem displayWithin_wrap {depth : Nat} (h : p.kind t = some (l.wrap u)) :
    p.displayWithin (depth + 1) t = (p.displayWithin depth u).map (· ++ l.mark) := by
  rw [displayWithin, h]
  cases l with
  | pointer => cases hu : p.displayWithin depth u <;> simp [Layer.wrap, Layer.mark, hu]
  | array => cases hu : p.displayWithin depth u <;> simp [Layer.wrap, Layer.mark, hu]

theorem Grounded.exists_core_text (hp : p.Grounded) (hcore : p.IsCore t) :
    ∃ text, ∀ depth, p.displayWithin depth t = some text := by
  obtain ⟨k, hk, hpointee⟩ := Option.map_eq_some_iff.mp hcore.1
  obtain ⟨k', hk', helement⟩ := Option.map_eq_some_iff.mp hcore.2
  obtain rfl := Option.some.inj (hk.symm.trans hk')
  cases k with
  | pointer u => cases hpointee
  | array u => cases helement
  | named n =>
    have hn := hp.named hk
    refine ⟨p.names.entries[n.index], fun depth => ?_⟩
    rw [displayWithin, hk]
    exact Array.getElem?_eq_getElem hn
  | _ =>
    refine ⟨t.text, fun depth => ?_⟩
    rw [displayWithin, hk]
    rfl

/-- The recursion goes down to smaller ids only, so that an id bounds its depth. -/
theorem Grounded.exists_text (hp : p.Grounded) (ht : t.index < p.kinds.size) :
    ∃ core layers text, p.Layered core layers t ∧ p.IsCore core ∧
      (∀ depth, p.displayWithin depth core = some text) ∧
      ∀ depth ≥ t.index, p.displayWithin depth t = some (text ++ Layer.marks layers) := by
  induction hindex : t.index using Nat.strongRecOn generalizing t with
  | ind i ih =>
    subst hindex
    obtain ⟨k, hk⟩ := exists_kind ht
    obtain ⟨l, u, rfl⟩ | hcore := layer_or_core hk
    · have hlt := hp.layer hk
      obtain ⟨core, layers, text, hlayered, hcore, hcoreText, htext⟩ :=
        ih u.index hlt (Nat.lt_trans hlt ht) rfl
      refine ⟨core, layers ++ [l], text, hlayered.wrap hk, hcore, hcoreText, fun depth hdepth => ?_⟩
      obtain ⟨depth, rfl⟩ : ∃ d, depth = d + 1 := ⟨depth - 1, by omega⟩
      rw [displayWithin_wrap hk, htext depth (by omega), Layer.marks_concat, Option.map_some,
        String.append_assoc]
    · obtain ⟨text, htext⟩ := hp.exists_core_text hcore
      refine ⟨t, [], text, .core, hcore, htext, fun depth _ => ?_⟩
      rw [htext, Layer.marks_nil, String.append_empty]

/-- In a pool built from the bottom up pointers and arrays come after the types they are made of.
Every type has a text, which is the text of the type in its middle and a mark for each layer around
it, and finding it takes no more nested lookups than the id of the type says. -/
theorem display_layers {p : Pool} (hp : p.BuiltUp) :
    (∀ t u : TypeId, p.kind t = some (.pointer u) ∨ p.kind t = some (.array u) →
      u.index < t.index) ∧
    ∀ t : TypeId, t.index < p.kinds.size → ∃ core layers text, p.Layered core layers t ∧
      p.IsCore core ∧ p.display core = some text ∧
      p.display t = some (text ++ String.join (layers.map Layer.mark)) ∧
      ∀ depth ≥ t.index, p.displayWithin depth t = p.display t := by
  have hgrounded := hp.grounded
  refine ⟨fun t u h => ?_, fun t ht => ?_⟩
  · obtain h | h := h
    · exact hgrounded.layer (l := .pointer) h
    · exact hgrounded.layer (l := .array) h
  · obtain ⟨core, layers, text, hlayered, hcore, hcoreText, htext⟩ := hgrounded.exists_text ht
    have hdisplay := htext p.kinds.size (Nat.le_of_lt ht)
    exact ⟨core, layers, text, hlayered, hcore, hcoreText _, hdisplay, fun depth hdepth =>
      (htext depth hdepth).trans hdisplay.symm⟩

/-- Arrays of a class, pointers to them, and arrays of those. -/
def nestedPool : Pool := new.served [.named "C", .arrayOf ⟨14⟩, .pointerTo ⟨15⟩, .arrayOf ⟨16⟩]

theorem display_layers_nestedPool : nestedPool.BuiltUp ∧
    ∃ core layers text, nestedPool.Layered core layers ⟨17⟩ ∧ nestedPool.IsCore core ∧
      nestedPool.display core = some text ∧
      nestedPool.display ⟨17⟩ = some (text ++ String.join (layers.map Layer.mark)) ∧
      nestedPool.display ⟨17⟩ = some "C[]*[]" := by
  have hclass : BuiltUp _ := BuiltBy.request (r := .named "C") .new trivial
  have harray : BuiltUp _ := BuiltBy.request (r := .arrayOf ⟨14⟩) hclass (by decide +kernel : 14 < _)
  have hpointer : BuiltUp _ := BuiltBy.request (r := .pointerTo ⟨15⟩) harray (by decide +kernel : 15 < _)
  have hbuilt : nestedPool.BuiltUp :=
    BuiltBy.request (r := .arrayOf ⟨16⟩) hpointer (by decide +kernel : 16 < _)
  obtain ⟨-, htext⟩ := display_layers hbuilt
  obtain ⟨core, layers, text, hlayered, hcore, hcoreText, hdisplay, -⟩ :=
    htext ⟨17⟩ (by decide +kernel)
  exact ⟨hbuilt, core, layers, text, hlayered, hcore, hcoreText, hdisplay, by decide +kernel⟩

end Pool
end ScalarLowering
