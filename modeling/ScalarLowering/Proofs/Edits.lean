import Mathlib.Order.Defs.Unbundled
import ScalarLowering.Edit.Basic

/-! How edits are taken apart. An edit that succeeds is inverted step by step. What holds of
the graph an edit leaves behind, whether it succeeds or fails, is a preorder on graphs that
each of its parts respects. -/

namespace ScalarLowering

namespace Except

variable {ε α β : Type}

theorem bind_eq_ok {x : Except ε α} {f : α → Except ε β} {b : β} :
    (x >>= f) = .ok b ↔ ∃ a, x = .ok a ∧ f a = .ok b := by
  cases x with
  | ok a => simp [bind, Except.bind]
  | error e => simp [bind, Except.bind]

theorem bind_unit_eq_ok {x : Except ε Unit} {f : Unit → Except ε β} {b : β} :
    (x >>= f) = .ok b ↔ x = .ok () ∧ f () = .ok b :=
  bind_eq_ok.trans ⟨fun ⟨_, h⟩ => h, fun h => ⟨(), h⟩⟩

@[simp] theorem pure_eq_ok {a b : α} : (pure a : Except ε α) = .ok b ↔ a = b := by
  simp [pure, Except.pure]

@[simp] theorem throw_ne_ok {e : ε} {b : α} : (throw e : Except ε α) = .ok b ↔ False := by
  simp [throw, throwThe, MonadExceptOf.throw]

theorem bind_eq_error {x : Except ε α} {f : α → Except ε β} {e : ε} :
    (x >>= f) = .error e ↔ x = .error e ∨ ∃ a, x = .ok a ∧ f a = .error e := by
  cases x with
  | ok a => simp [bind, Except.bind]
  | error e => simp [bind, Except.bind]

theorem ite_none_eq_ok {c : Prop} [Decidable c] {x : Except ε (Option α)} {a : α} :
    (if c then pure none else x) = .ok (some a) ↔ ¬c ∧ x = .ok (some a) := by
  by_cases h : c <;> simp [h]

end Except

theorem Error.lift_some_bind {α β : Type} (x : α) (f : α → Except Error β) :
    (liftM (some x) >>= f) = f x := rfl

namespace Edit

variable {α β : Type} {g g' : Graph}

theorem bind_eq_ok {x : Edit α} {f : α → Edit β} {b : β} :
    (x >>= f) g = .ok b g' ↔ ∃ a h, x g = .ok a h ∧ f a h = .ok b g' := by
  show EStateM.bind x f g = _ ↔ _
  unfold EStateM.bind
  cases hx : x g with
  | ok a h => simp [and_assoc]
  | error e h => simp

theorem pure_eq_ok {a b : α} : (pure a : Edit α) g = .ok b g' ↔ a = b ∧ g = g' := by
  show EStateM.Result.ok a g = _ ↔ _
  simp

theorem throw_ne_ok {e : Error} {b : α} : (throw e : Edit α) g ≠ .ok b g' := by
  show EStateM.Result.error e g ≠ _
  simp

theorem query_bind_eq_ok {f : Graph → Except Error α} {k : α → Edit β} {b : β} :
    (query f >>= k) g = .ok b g' ↔ ∃ a, f g = .ok a ∧ k a g = .ok b g' := by
  rw [bind_eq_ok]
  constructor
  · rintro ⟨a, h, hq, hk⟩
    obtain ⟨hf, rfl⟩ := query_eq_ok.mp hq
    exact ⟨a, hf, hk⟩
  · rintro ⟨a, hf, hk⟩
    exact ⟨a, g, query_eq_ok.mpr ⟨hf, rfl⟩, hk⟩

theorem modify_eq_ok {f : Graph → Graph} {u : Unit} :
    (modify f : Edit Unit) g = .ok u g' ↔ f g = g' := by
  show EStateM.Result.ok () (f g) = _ ↔ _
  simp

theorem modifyGet_eq_ok {f : Graph → α × Graph} {a : α} :
    (modifyGet f : Edit α) g = .ok a g' ↔ f g = (a, g') := by
  show EStateM.Result.ok (f g).1 (f g).2 = _ ↔ _
  simp [Prod.ext_iff]

theorem bind_eq_error {x : Edit α} {f : α → Edit β} {e : Error} (h : (x >>= f) g = .error e g') :
    x g = .error e g' ∨ ∃ a h', x g = .ok a h' ∧ f a h' = .error e g' := by
  change EStateM.bind x f g = _ at h
  unfold EStateM.bind at h
  cases hx : x g with
  | ok a h' =>
    rw [hx] at h
    exact .inr ⟨a, h', rfl, h⟩
  | error e' h' =>
    rw [hx] at h
    cases h
    exact .inl rfl

def after (e : Edit α) (g : Graph) : Graph :=
  match e g with
  | .ok _ h => h
  | .error _ h => h

def succeeds (e : Edit α) (g : Graph) : Bool :=
  match e g with
  | .ok _ _ => true
  | .error _ _ => false

theorem exists_ok_of_succeeds {e : Edit α} (h : e.succeeds g) : ∃ a, e g = .ok a (e.after g) := by
  unfold succeeds at h
  unfold after
  split at h
  · rename_i a g' hok
    exact ⟨a, by rw [hok]⟩
  · cases h

theorem after_of_ok {e : Edit α} {a : α} (h : e g = .ok a g') : e.after g = g' := by
  simp [after, h]

theorem after_of_error {e : Edit α} {err : Error} (h : e g = .error err g') : e.after g = g' := by
  simp [after, h]

theorem after_query_bind (f : Graph → Except Error α) (k : α → Edit β) (g : Graph) :
    (query f >>= k).after g = match f g with
      | .ok a => (k a).after g
      | .error _ => g := by
  cases hf : f g with
  | ok a =>
    have hq : query f g = .ok a g := query_eq_ok.mpr ⟨hf, rfl⟩
    simp [after, bind, EStateM.bind, hq]
  | error e =>
    have hq : query f g = .error e g := query_eq_error.mpr ⟨hf, rfl⟩
    simp [after, bind, EStateM.bind, hq]

/-- Whether a relation holds between every graph and what an edit makes of it. -/
def Keeps (R : Graph → Graph → Prop) (e : Edit α) : Prop := ∀ g, R g (e.after g)

theorem Keeps.ok {R : Graph → Graph → Prop} {e : Edit α} (he : e.Keeps R) {a : α}
    (h : e g = .ok a g') : R g g' := after_of_ok h ▸ he g

variable {R : Graph → Graph → Prop}

theorem keeps_pure [Std.Refl R] (a : α) : (pure a : Edit α).Keeps R := fun g => Std.Refl.refl g

theorem keeps_throw [Std.Refl R] (e : Error) : (throw e : Edit α).Keeps R := fun g => Std.Refl.refl g

theorem keeps_query [Std.Refl R] (f : Graph → Except Error α) : (query f).Keeps R := by
  intro g
  have hg : (query f).after g = g := by
    unfold after query
    split <;> split at * <;> simp_all
  rw [hg]
  exact Std.Refl.refl g

theorem keeps_bind [IsTrans Graph R] {x : Edit α} {f : α → Edit β} (hx : x.Keeps R)
    (hf : ∀ a, (f a).Keeps R) : (x >>= f).Keeps R := by
  intro g
  have h := hx g
  cases hr : x g with
  | ok a h' =>
    rw [after_of_ok hr] at h
    have hb : (x >>= f).after g = (f a).after h' := by
      simp [after, bind, EStateM.bind, hr]
    rw [hb]
    exact IsTrans.trans _ _ _ h (hf a h')
  | error e h' =>
    rw [after_of_error hr] at h
    have hb : (x >>= f).after g = h' := by simp [after, bind, EStateM.bind, hr]
    rwa [hb]

theorem keeps_query_bind [Std.Refl R] {f : Graph → Except Error α} {k : α → Edit β}
    (hk : ∀ g a, f g = .ok a → R g ((k a).after g)) : (query f >>= k).Keeps R := by
  intro g
  rw [after_query_bind]
  split
  · exact hk g _ ‹_›
  · exact Std.Refl.refl g

theorem keeps_map {f : α → β} {x : Edit α} (hx : x.Keeps R) : (f <$> x).Keeps R := by
  intro g
  have hm : (f <$> x).after g = x.after g := by
    cases hr : x g <;> simp [after, Functor.map, EStateM.map, hr]
  rw [hm]
  exact hx g

theorem keeps_modify {f : Graph → Graph} (hf : ∀ g, R g (f g)) : (modify f : Edit Unit).Keeps R :=
  hf

theorem keeps_modifyGet {f : Graph → α × Graph} (hf : ∀ g, R g (f g).2) :
    (modifyGet f : Edit α).Keeps R :=
  hf

theorem keeps_sweep [Std.Refl R] [IsTrans Graph R] {edit : α → Edit Bool}
    (h : ∀ a, (edit a).Keeps R) (as : List α) : (sweep edit as).Keeps R := by
  induction as with
  | nil => exact keeps_pure 0
  | cons a as ih => exact keeps_bind (h a) fun _ => keeps_bind ih fun _ => keeps_pure _

end Edit
end ScalarLowering
