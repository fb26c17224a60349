import Qrtb.Lib.Bytes
import Mathlib.Data.Int.Log
import Mathlib.Data.Rat.Floor

/-!
# Exceptions and struct packing of the host language

A fallible function returns in `Except`. A checking function has two ways to
stop: it rejects its input with a reason, which is an ordinary return value of
the source, or it raises. `Check` keeps the two apart.
-/

/-- The exceptions the modelled code can raise. -/
inductive PyError where
  | structError
  | indexError
  | keyError
  | valueError
  | zeroDivisionError
  | attributeError
  | typeError
  | unicodeDecodeError
  | connectionError
  | overflowError
  | integrityError
  | operationalError
  deriving DecidableEq, Repr

/-- `struct.pack` of an unsigned big-endian integer of `width` bytes. -/
def structPack (width : ℕ) (n : ℤ) : Except PyError Bytes :=
  if 0 ≤ n ∧ n < 256 ^ width then .ok (Bytes.bigEndian width n.toNat) else .error .structError

/-- `struct.unpack` of one unsigned big-endian integer: the buffer must have exactly that size. -/
def structUnpack (width : ℕ) (data : Bytes) : Except PyError ℕ :=
  if data.length = width then .ok (Bytes.toNat data) else .error .structError

/-- `bytes([n])`. -/
def byteOf (n : ℤ) : Except PyError Bytes :=
  if 0 ≤ n ∧ n < 256 then .ok (Bytes.bigEndian 1 n.toNat) else .error .valueError

/-- `n.to_bytes(width, 'big')`. -/
def intToBytes (width n : ℕ) : Except PyError Bytes :=
  if n < 256 ^ width then .ok (Bytes.bigEndian width n) else .error .overflowError

theorem structPack_eq_ok {width : ℕ} {n : ℤ} {data : Bytes} :
    structPack width n = .ok data ↔
      (0 ≤ n ∧ n < 256 ^ width) ∧ data = Bytes.bigEndian width n.toNat := by
  unfold structPack
  split_ifs with h <;> simp [h, eq_comm]

theorem length_of_byteOf {n : ℤ} {data : Bytes} (h : byteOf n = .ok data) : data.length = 1 := by
  unfold byteOf at h
  split_ifs at h
  obtain rfl := Except.ok.inj h
  rfl

theorem structUnpack_bigEndian {width n : ℕ} (h : n < 256 ^ width) :
    structUnpack width (Bytes.bigEndian width n) = .ok n := by
  simp [structUnpack, Bytes.toNat_bigEndian h]

theorem structUnpack_eq_ok {width n : ℕ} {data : Bytes} :
    structUnpack width data = .ok n ↔ data.length = width ∧ n = Bytes.toNat data := by
  unfold structUnpack
  split_ifs with h <;> simp [h, eq_comm]

theorem structUnpack_eq_error {width : ℕ} {data : Bytes} {e : PyError}
    (h : structUnpack width data = .error e) : e = .structError := by
  unfold structUnpack at h
  split_ifs at h
  exact (Except.error.inj h).symm

theorem structPack_of_structUnpack {width n : ℕ} {data : Bytes}
    (h : structUnpack width data = .ok n) : structPack width n = .ok data := by
  obtain ⟨hlength, rfl⟩ := structUnpack_eq_ok.mp h
  have hlt := Bytes.toNat_lt data
  rw [hlength] at hlt
  refine structPack_eq_ok.mpr ⟨⟨by omega, by exact_mod_cast hlt⟩, ?_⟩
  rw [Int.toNat_natCast, ← hlength, Bytes.bigEndian_toNat]

def roundHalfEven (q : ℚ) : ℤ :=
  let below := ⌊q⌋
  let rest := q - below
  if rest < 1 / 2 then below
  else if 1 / 2 < rest then below + 1
  else if below % 2 = 0 then below else below + 1

/-- `a / b` of two integers: the quotient rounded to 53 significant bits. The quotients formed
here are far from the ends of the exponent range. -/
def trueDiv (a b : ℤ) : ℚ :=
  let quotient : ℚ := a / b
  if quotient = 0 then 0
  else
    let ulp : ℚ := 2 ^ (Int.log 2 |quotient| - 52)
    roundHalfEven (quotient / ulp) * ulp

example : trueDiv 6 4 = 3 / 2 := by decide +kernel

theorem Except.bind_eq_ok {ε α β : Type} {x : Except ε α} {f : α → Except ε β} {b : β} :
    (x >>= f) = .ok b ↔ ∃ a, x = .ok a ∧ f a = .ok b := by
  cases x with
  | error e => simp [bind, Except.bind]
  | ok a => simp [bind, Except.bind]

theorem Except.bind_eq_error {ε α β : Type} {x : Except ε α} {f : α → Except ε β} {e : ε} :
    (x >>= f) = .error e ↔ x = .error e ∨ ∃ a, x = .ok a ∧ f a = .error e := by
  cases x with
  | error e => simp [bind, Except.bind]
  | ok a => simp [bind, Except.bind]

theorem Except.bind_return_eq_ok {ε α β : Type} {x : Except ε α} {f : α → β} {b : β} :
    (x >>= fun a => .ok (f a)) = .ok b ↔ ∃ a, x = .ok a ∧ b = f a := by
  rw [Except.bind_eq_ok]
  simp only [Except.ok.injEq, eq_comm (a := b)]

def Except.Returns {ε α : Type} (x : Except ε α) : Prop := ∃ a, x = .ok a

theorem Except.map_eq_ok {ε α β : Type} {x : Except ε α} {f : α → β} {b : β} :
    x.map f = .ok b ↔ ∃ a, x = .ok a ∧ f a = b := by
  cases x with
  | error e => simp [Except.map]
  | ok a => simp [Except.map]

theorem Except.returns_bind {ε α β : Type} {x : Except ε α} {f : α → Except ε β} :
    (x >>= f).Returns ↔ ∃ a, x = .ok a ∧ (f a).Returns := by
  constructor
  · rintro ⟨b, hb⟩
    obtain ⟨a, ha, hf⟩ := Except.bind_eq_ok.mp hb
    exact ⟨a, ha, b, hf⟩
  · rintro ⟨a, ha, b, hb⟩
    exact ⟨b, Except.bind_eq_ok.mpr ⟨a, ha, hb⟩⟩

theorem Except.returns_mapM {ε α β : Type} {f : α → Except ε β} {xs : List α} :
    (xs.mapM f).Returns ↔ ∀ x ∈ xs, (f x).Returns := by
  induction xs with
  | nil => exact ⟨fun _ x hx => absurd hx List.not_mem_nil, fun _ => ⟨[], rfl⟩⟩
  | cons x xs ih =>
    rw [List.mapM_cons, Except.returns_bind]
    simp only [Except.returns_bind, List.forall_mem_cons, ← ih]
    constructor
    · rintro ⟨y, hy, ys, hys, -⟩
      exact ⟨⟨y, hy⟩, ys, hys⟩
    · rintro ⟨⟨y, hy⟩, ys, hys⟩
      exact ⟨y, hy, ys, hys, y :: ys, rfl⟩

theorem Except.mapM_eq_ok_iff {ε α β : Type} {f : α → Except ε β} {P : α → Prop} {g : α → β}
    (hf : ∀ x y, f x = .ok y ↔ P x ∧ y = g x) {xs : List α} {ys : List β} :
    xs.mapM f = .ok ys ↔ (∀ x ∈ xs, P x) ∧ ys = xs.map g := by
  induction xs generalizing ys with
  | nil => simp [pure, Except.pure, eq_comm]
  | cons x xs ih =>
    simp only [List.mapM_cons, Except.bind_eq_ok, hf, ih, List.forall_mem_cons]
    constructor
    · rintro ⟨_, ⟨hx, rfl⟩, _, ⟨hxs, rfl⟩, h⟩
      exact ⟨⟨hx, hxs⟩, (Except.ok.inj h).symm⟩
    · rintro ⟨⟨hx, hxs⟩, rfl⟩
      exact ⟨_, ⟨hx, rfl⟩, _, ⟨hxs, rfl⟩, rfl⟩

theorem Except.mapM_eq_ok_map {ε α β : Type} {f : α → Except ε β} {g : α → β} {xs : List α}
    (hf : ∀ x ∈ xs, f x = .ok (g x)) : xs.mapM f = .ok (xs.map g) := by
  induction xs with
  | nil => rfl
  | cons x xs ih =>
    rw [List.mapM_cons, Except.bind_eq_ok]
    refine ⟨g x, hf x List.mem_cons_self, Except.bind_eq_ok.mpr ⟨xs.map g, ?_, rfl⟩⟩
    exact ih fun y hy => hf y (List.mem_cons_of_mem _ hy)

theorem Except.length_of_mapM {ε α β : Type} {f : α → Except ε β} {xs : List α} {ys : List β}
    (h : xs.mapM f = .ok ys) : ys.length = xs.length := by
  induction xs generalizing ys with
  | nil =>
    obtain rfl := Except.ok.inj h
    rfl
  | cons x xs ih =>
    rw [List.mapM_cons, Except.bind_eq_ok] at h
    obtain ⟨y, -, h⟩ := h
    obtain ⟨ys', hys', h⟩ := Except.bind_eq_ok.mp h
    obtain rfl := Except.ok.inj h
    simp [ih hys']

theorem structPack_returns {width : ℕ} {n : ℤ} :
    (structPack width n).Returns ↔ 0 ≤ n ∧ n < 256 ^ width := by
  simp [Except.Returns, structPack_eq_ok]

theorem byteOf_returns {n : ℤ} : (byteOf n).Returns ↔ 0 ≤ n ∧ n < 256 := by
  unfold byteOf
  split_ifs with h <;> simp [Except.Returns, h]

theorem intToBytes_returns {width n : ℕ} : (intToBytes width n).Returns ↔ n < 256 ^ width := by
  unfold intToBytes
  split_ifs with h <;> simp [Except.Returns, h]

/-- Why a check stopped: it returned `(False, reason)`, or an exception left it. -/
inductive Halt where
  | reject (reason : String)
  | raised (error : PyError)
  deriving DecidableEq, Repr

/-- A checking function; `ok` is its `(True, "valid")`. -/
abbrev Check := Except Halt

namespace Check

/-- `if condition: return False, reason`. -/
def rejectIf (condition : Prop) [Decidable condition] (reason : String) : Check Unit :=
  if condition then .error (.reject reason) else .ok ()

/-- Run a function that may raise inside a check. -/
def lift {α : Type*} (x : Except PyError α) : Check α := x.mapError Halt.raised

@[simp] theorem rejectIf_eq_ok {condition : Prop} [Decidable condition] {reason : String} {u : Unit} :
    rejectIf condition reason = .ok u ↔ ¬ condition := by
  unfold rejectIf
  split_ifs with h <;> simp [h]

@[simp] theorem lift_eq_ok {α : Type*} {x : Except PyError α} {a : α} :
    lift x = .ok a ↔ x = .ok a := by
  cases x <;> simp [lift, Except.mapError]

end Check
