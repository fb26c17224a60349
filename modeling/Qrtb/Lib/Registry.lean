import Mathlib.Data.Nat.Notation
import Mathlib.Logic.Function.Basic
import Qrtb.Lib.OrderedDict

/-!
# One-time registries

A key is registered once with a value and can then be given new values; the registry
counts how often. This is what a registry of authentication roots is for: nobody can
register over an earlier registration, and a rotation needs one. Where a dictionary
describes the registry, both can be assigned to.
-/

variable {κ ρ : Type*} [DecidableEq κ]

/-- The value of a registered key and how often it was replaced. -/
abbrev Registry (κ ρ : Type*) := κ → Option (ρ × ℕ)

namespace Registry

def register (key : κ) (value : ρ) (r : Registry κ ρ) : Bool × Registry κ ρ :=
  match r key with
  | some _ => (false, r)
  | none => (true, Function.update r key (some (value, 0)))

def rotate (key : κ) (value : ρ) (r : Registry κ ρ) : Bool × Registry κ ρ :=
  match r key with
  | none => (false, r)
  | some entry => (true, Function.update r key (some (value, entry.2 + 1)))

variable {r : Registry κ ρ} {key : κ}

theorem register_of_some {entry : ρ × ℕ} (h : r key = some entry) (value : ρ) :
    r.register key value = (false, r) := by
  rw [register, h]

theorem register_of_none (h : r key = none) (value : ρ) :
    r.register key value = (true, Function.update r key (some (value, 0))) := by
  rw [register, h]

theorem rotate_of_some {entry : ρ × ℕ} (h : r key = some entry) (value : ρ) :
    r.rotate key value = (true, Function.update r key (some (value, entry.2 + 1))) := by
  rw [rotate, h]

theorem rotate_of_none (h : r key = none) (value : ρ) : r.rotate key value = (false, r) := by
  rw [rotate, h]

/-- A dictionary that describes a registry does so after an assignment to both. -/
theorem get?_set_update {β γ : Type*} {d : OrderedDict κ β} {F : Option β → γ}
    {G : Option (ρ × ℕ) → γ} (h : ∀ k, F (d.get? k) = G (r k)) {v : β} {entry : ρ × ℕ}
    (hv : F (some v) = G (some entry)) (k : κ) :
    F ((d.set key v).get? k) = G (Function.update r key (some entry) k) := by
  rw [OrderedDict.get?_set, Function.update_apply]
  split_ifs
  · exact hv
  · exact h k

theorem count_register {bound : ℕ} (h : ∀ k entry, r k = some entry → entry.2 ≤ bound) (value : ρ)
    {k : κ} {entry : ρ × ℕ} (hentry : (r.register key value).2 k = some entry) :
    entry.2 ≤ bound := by
  cases hkey : r key with
  | some old =>
    rw [register_of_some hkey] at hentry
    exact h k entry hentry
  | none =>
    rw [register_of_none hkey] at hentry
    dsimp only at hentry
    by_cases hk : k = key
    · rw [hk, Function.update_self] at hentry
      rw [← Option.some.inj hentry]
      exact Nat.zero_le _
    · rw [Function.update_of_ne hk] at hentry
      exact h k entry hentry

theorem count_rotate {bound : ℕ} (h : ∀ k entry, r k = some entry → entry.2 ≤ bound) (value : ρ)
    {k : κ} {entry : ρ × ℕ} (hentry : (r.rotate key value).2 k = some entry) :
    entry.2 ≤ bound + 1 := by
  cases hkey : r key with
  | none =>
    rw [rotate_of_none hkey] at hentry
    exact Nat.le_succ_of_le (h k entry hentry)
  | some old =>
    rw [rotate_of_some hkey] at hentry
    dsimp only at hentry
    by_cases hk : k = key
    · rw [hk, Function.update_self] at hentry
      rw [← Option.some.inj hentry]
      exact Nat.succ_le_succ (h key old hkey)
    · rw [Function.update_of_ne hk] at hentry
      exact Nat.le_succ_of_le (h k entry hentry)

end Registry
