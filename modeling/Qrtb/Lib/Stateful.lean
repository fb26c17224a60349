import Qrtb.Lib.Python
import Mathlib.Data.List.Induction

/-!
# Computations on mutable state

A computation reads and writes a state and may raise. What was written before an
exception stays written, as the attributes of an object do. Two rules are used on
such computations: an invariant of the parts is an invariant of the whole, and a
map between two states under which the parts agree is one under which the wholes
agree.
-/

/-- A computation with state `σ`; the state is returned also when it raises. -/
def Stateful (σ α : Type) := σ → Except PyError α × σ

namespace Stateful

variable {σ τ ε α β : Type}

instance : Monad (Stateful σ) where
  pure a := fun s => (.ok a, s)
  bind x f := fun s =>
    match x s with
    | (.error e, s') => (.error e, s')
    | (.ok a, s') => f a s'

def reads (f : σ → α) : Stateful σ α := fun s => (.ok (f s), s)

def modify (f : σ → σ) : Stateful σ Unit := fun s => (.ok (), f s)

/-- A computation that does not touch the state. -/
def ofExcept (x : Except PyError α) : Stateful σ α := fun s => (x, s)

def raise (e : PyError) : Stateful σ α := ofExcept (.error e)

def total (f : σ → α × σ) : Stateful σ α := fun s => (.ok (f s).1, (f s).2)

/-- A checking method: a rejection is an answer, an exception stays one. -/
def checking (f : σ → Check Unit × σ) : Stateful σ Bool := fun s =>
  match f s with
  | (.ok (), s') => (.ok true, s')
  | (.error (.reject _), s') => (.ok false, s')
  | (.error (.raised e), s') => (.error e, s')

theorem snd_checking (f : σ → Check Unit × σ) (s : σ) : (checking f s).2 = (f s).2 := by
  rw [checking]
  split
  next heq => rw [heq]
  next heq => rw [heq]
  next heq => rw [heq]

/-- Run on one attribute of a larger state. -/
def on (part : τ → σ) (put : σ → τ → τ) (x : Stateful σ α) : Stateful τ α := fun t =>
  ((x (part t)).1, put (x (part t)).2 t)

/-- A loop that collects what its body returns. -/
def forEach (f : α → Stateful σ β) : List α → Stateful σ (List β)
  | [] => pure []
  | a :: as => do
    let b ← f a
    let bs ← forEach f as
    return b :: bs

/-- The state after a sequence of calls, each of which may raise. -/
def after (f : ε → Stateful σ α) (calls : List ε) (s : σ) : σ :=
  calls.foldl (fun s call => (f call s).2) s

theorem bind_apply (x : Stateful σ α) (f : α → Stateful σ β) (s : σ) :
    (x >>= f) s = match x s with
      | (.error e, s') => (.error e, s')
      | (.ok a, s') => f a s' := rfl

theorem bind_of_error {x : Stateful σ α} {s : σ} {e : PyError} (h : (x s).1 = .error e)
    (f : α → Stateful σ β) : (x >>= f) s = (.error e, (x s).2) := by
  rw [bind_apply]
  generalize x s = r at h
  obtain ⟨_, s'⟩ := r
  subst h
  rfl

theorem bind_of_ok {x : Stateful σ α} {s : σ} {a : α} (h : (x s).1 = .ok a)
    (f : α → Stateful σ β) : (x >>= f) s = f a (x s).2 := by
  rw [bind_apply]
  generalize x s = r at h
  obtain ⟨_, s'⟩ := r
  subst h
  rfl

theorem bind_eq_ok {x : Stateful σ α} {f : α → Stateful σ β} {s : σ} {b : β} :
    ((x >>= f) s).1 = .ok b ↔ ∃ a, (x s).1 = .ok a ∧ (f a (x s).2).1 = .ok b := by
  cases h : (x s).1 with
  | error e => simp [bind_of_error h]
  | ok a => simp [bind_of_ok h]

@[simp] theorem reads_bind (g : σ → α) (f : α → Stateful σ β) (s : σ) :
    (reads g >>= f) s = f (g s) s := rfl

@[simp] theorem ofExcept_ok_bind (a : α) (f : α → Stateful σ β) (s : σ) :
    (ofExcept (.ok a) >>= f) s = f a s := rfl

@[simp] theorem pure_apply (a : α) (s : σ) : (pure a : Stateful σ α) s = (.ok a, s) := rfl

theorem snd_bind_pure (x : Stateful σ α) (f : α → β) (s : σ) :
    ((x >>= fun a => pure (f a)) s).2 = (x s).2 := by
  cases h : (x s).1 with
  | error e => rw [bind_of_error h]
  | ok a => rw [bind_of_ok h, pure_apply]

theorem forEach_cons_eq_ok {f : α → Stateful σ β} {a : α} {as : List α} {s : σ} {bs : List β} :
    (forEach f (a :: as) s).1 = .ok bs ↔
      ∃ b bs', (f a s).1 = .ok b ∧ (forEach f as (f a s).2).1 = .ok bs' ∧ bs = b :: bs' := by
  constructor
  · intro h
    obtain ⟨b, hb, hrest⟩ := bind_eq_ok.mp h
    obtain ⟨bs', hbs', hlast⟩ := bind_eq_ok.mp hrest
    exact ⟨b, bs', hb, hbs', (Except.ok.inj hlast).symm⟩
  · rintro ⟨b, bs', hb, hbs', rfl⟩
    exact bind_eq_ok.mpr ⟨b, hb, bind_eq_ok.mpr ⟨bs', hbs', rfl⟩⟩

/-- The state after the first round is the state the other rounds start from. -/
theorem snd_forEach_cons {f : α → Stateful σ β} {a : α} (as : List α) {s : σ} {b : β}
    (h : (f a s).1 = .ok b) : (forEach f (a :: as) s).2 = (forEach f as (f a s).2).2 := by
  rw [forEach, bind_of_ok h]
  exact snd_bind_pure _ _ _

/-- A loop that raises stops in the middle, after some rounds that did not. -/
theorem forEach_error {f : α → Stateful σ β} {as : List α} {s : σ} {e : PyError}
    (h : (forEach f as s).1 = .error e) :
    ∃ before a rest bs, as = before ++ a :: rest ∧ (forEach f before s).1 = .ok bs ∧
      (f a (forEach f before s).2).1 = .error e ∧
      (forEach f as s).2 = (f a (forEach f before s).2).2 := by
  induction as generalizing s with
  | nil => cases h
  | cons a as ih =>
    cases hfirst : (f a s).1 with
    | error e' =>
      have hall : forEach f (a :: as) s = (.error e', (f a s).2) := by
        rw [forEach, bind_of_error hfirst]
      rw [hall] at h
      obtain rfl := Except.error.inj h
      exact ⟨[], a, as, [], rfl, rfl, hfirst, congrArg Prod.snd hall⟩
    | ok b =>
      have hrest : (forEach f as (f a s).2).1 = .error e := by
        cases has : (forEach f as (f a s).2).1 with
        | error e' =>
          rw [forEach, bind_of_ok hfirst, bind_of_error has] at h
          exact h
        | ok bs => rw [forEach_cons_eq_ok.mpr ⟨b, bs, hfirst, has, rfl⟩] at h; cases h
      obtain ⟨before, a', rest, bs, rfl, hbefore, hfails, hstate⟩ := ih hrest
      refine ⟨a :: before, a', rest, b :: bs, rfl,
        forEach_cons_eq_ok.mpr ⟨b, bs, hfirst, hbefore, rfl⟩, ?_, ?_⟩
      · rwa [snd_forEach_cons before hfirst]
      · rw [snd_forEach_cons _ hfirst, snd_forEach_cons before hfirst, hstate]

@[simp] theorem after_nil (f : ε → Stateful σ α) (s : σ) : after f [] s = s := rfl

theorem after_append_singleton (f : ε → Stateful σ α) (calls : List ε) (call : ε) (s : σ) :
    after f (calls ++ [call]) s = (f call (after f calls s)).2 := by
  rw [after, List.foldl_append]
  rfl

/-- The computation keeps the property, whether it returns or raises. -/
def Preserves (I : σ → Prop) (x : Stateful σ α) : Prop := ∀ s, I s → I (x s).2

variable {I : σ → Prop}

theorem preserves_pure (a : α) : Preserves I (pure a) := fun _ h => h

theorem preserves_reads (f : σ → α) : Preserves I (reads f) := fun _ h => h

theorem preserves_modify {f : σ → σ} (h : ∀ s, I s → I (f s)) : Preserves I (modify f) := h

theorem preserves_total {f : σ → α × σ} (h : ∀ s, I s → I (f s).2) : Preserves I (total f) := h

theorem preserves_checking {f : σ → Check Unit × σ} (h : ∀ s, I s → I (f s).2) :
    Preserves I (checking f) := by
  intro s hs
  rw [snd_checking]
  exact h s hs

theorem preserves_ofExcept (x : Except PyError α) : Preserves I (ofExcept x) := fun _ h => h

theorem Preserves.bind {x : Stateful σ α} {f : α → Stateful σ β} (hx : Preserves I x)
    (hf : ∀ a, Preserves I (f a)) : Preserves I (x >>= f) := by
  intro s h
  cases hr : (x s).1 with
  | error e =>
    rw [bind_of_error hr]
    exact hx s h
  | ok a =>
    rw [bind_of_ok hr]
    exact hf a _ (hx s h)

theorem Preserves.map {x : Stateful σ α} (hx : Preserves I x) (f : α → β) :
    Preserves I (f <$> x) := hx.bind fun _ => preserves_pure _

theorem Preserves.ite {c : Prop} [Decidable c] {x y : Stateful σ α} (hx : Preserves I x)
    (hy : Preserves I y) : Preserves I (if c then x else y) := by
  split_ifs
  · exact hx
  · exact hy

theorem Preserves.forEach {f : α → Stateful σ β} (hf : ∀ a, Preserves I (f a)) (as : List α) :
    Preserves I (forEach f as) := by
  induction as with
  | nil => exact preserves_pure _
  | cons a as ih => exact (hf a).bind fun b => ih.bind fun bs => preserves_pure _

/-- What one round makes of its element, on states with the invariant, the loop makes of each. -/
theorem Preserves.forall₂_forEach {f : α → Stateful σ β} {R : α → β → Prop}
    (hI : ∀ a, Preserves I (f a)) (hR : ∀ a s b, I s → (f a s).1 = .ok b → R a b) {as : List α}
    {bs : List β} {s : σ} (hs : I s) (h : (Stateful.forEach f as s).1 = .ok bs) :
    List.Forall₂ R as bs := by
  induction as generalizing s bs with
  | nil =>
    obtain rfl := Except.ok.inj h
    exact .nil
  | cons a as ih =>
    obtain ⟨b, bs', hb, hbs', rfl⟩ := forEach_cons_eq_ok.mp h
    exact .cons (hR a s b hs hb) (ih (hI a s hs) hbs')

theorem Preserves.on {part : τ → σ} {put : σ → τ → τ} {J : τ → Prop} {x : Stateful σ α}
    (hx : Preserves I x) (hpart : ∀ t, J t → I (part t)) (hput : ∀ t s, J t → I s → J (put s t)) :
    Preserves J (on part put x) := by
  intro t h
  exact hput t _ h (hx _ (hpart t h))

theorem Preserves.after {f : ε → Stateful σ α} (hf : ∀ call, Preserves I (f call))
    (calls : List ε) {s : σ} (h : I s) : I (after f calls s) := by
  induction calls using List.reverseRecOn with
  | nil => exact h
  | append_singleton calls call ih =>
    rw [after_append_singleton]
    exact hf call _ ih

/-- Whatever the computation returns has the property. -/
def Ensures (R : α → Prop) (x : Stateful σ α) : Prop := ∀ s a, (x s).1 = .ok a → R a

theorem ensures_pure {R : α → Prop} {a : α} (h : R a) : Ensures R (pure a : Stateful σ α) := by
  intro s b hb
  obtain rfl := Except.ok.inj hb
  exact h

theorem Ensures.bind {R : β → Prop} {x : Stateful σ α} {f : α → Stateful σ β}
    (h : ∀ a, Ensures R (f a)) : Ensures R (x >>= f) := by
  intro s b hb
  obtain ⟨a, -, hf⟩ := bind_eq_ok.mp hb
  exact h a _ b hf

/-- Under the map the second computation does what the first one does, with the same outcome. -/
def Simulates (φ : σ → τ) (x : Stateful σ α) (y : Stateful τ α) : Prop :=
  ∀ s, y (φ s) = ((x s).1, φ (x s).2)

variable {φ : σ → τ}

theorem simulates_pure (a : α) : Simulates φ (pure a) (pure a) := fun _ => rfl

theorem simulates_ofExcept (x : Except PyError α) : Simulates φ (ofExcept x) (ofExcept x) :=
  fun _ => rfl

theorem simulates_reads {f : σ → α} {g : τ → α} (h : ∀ s, g (φ s) = f s) :
    Simulates φ (reads f) (reads g) := by
  intro s
  rw [reads, h]
  rfl

theorem simulates_modify {f : σ → σ} {g : τ → τ} (h : ∀ s, g (φ s) = φ (f s)) :
    Simulates φ (modify f) (modify g) := by
  intro s
  rw [modify, h]
  rfl

theorem Simulates.bind {x : Stateful σ α} {y : Stateful τ α} {f : α → Stateful σ β}
    {g : α → Stateful τ β} (hx : Simulates φ x y) (hf : ∀ a, Simulates φ (f a) (g a)) :
    Simulates φ (x >>= f) (y >>= g) := by
  intro s
  have hfirst : (y (φ s)).1 = (x s).1 := by rw [hx s]
  cases hr : (x s).1 with
  | error e => rw [bind_of_error hr, bind_of_error (hfirst.trans hr), hx s]
  | ok a =>
    rw [bind_of_ok hr, bind_of_ok (hfirst.trans hr), hx s]
    exact hf a _

theorem Simulates.ite {c : Prop} [Decidable c] {x x' : Stateful σ α} {y y' : Stateful τ α}
    (hx : Simulates φ x y) (hy : Simulates φ x' y') :
    Simulates φ (if c then x else x') (if c then y else y') := by
  split_ifs
  · exact hx
  · exact hy

theorem Simulates.forEach {f : α → Stateful σ β} {g : α → Stateful τ β}
    (h : ∀ a, Simulates φ (f a) (g a)) (as : List α) :
    Simulates φ (forEach f as) (forEach g as) := by
  induction as with
  | nil => exact simulates_pure _
  | cons a as ih => exact (h a).bind fun b => ih.bind fun bs => simulates_pure _

theorem Simulates.on {σ' τ' : Type} {ψ : σ' → τ'} {x : Stateful σ α} {y : Stateful τ α}
    {part : σ' → σ} {put : σ → σ' → σ'} {part' : τ' → τ} {put' : τ → τ' → τ'}
    (hx : Simulates φ x y) (hpart : ∀ s, part' (ψ s) = φ (part s))
    (hput : ∀ r s, put' (φ r) (ψ s) = ψ (put r s)) :
    Simulates ψ (on part put x) (on part' put' y) := by
  intro s
  simp only [Stateful.on, hpart, hx (part s), hput]

theorem Simulates.after {f : ε → Stateful σ α} {g : ε → Stateful τ α}
    (h : ∀ call, Simulates φ (f call) (g call)) (calls : List ε) (s : σ) :
    after g calls (φ s) = φ (after f calls s) := by
  induction calls using List.reverseRecOn with
  | nil => rfl
  | append_singleton calls call ih =>
    rw [after_append_singleton, after_append_singleton, ih, h call]

end Stateful
