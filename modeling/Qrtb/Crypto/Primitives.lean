import Qrtb.Lib.Keccak
import Qrtb.Lib.Python

/-!
# Hashing and concatenation (`src/crypto.py`)

`concat` joins mixed values into one byte string: integers as eight big-endian
bytes, floats as their IEEE bit pattern, strings in UTF-8. An integer outside
the unsigned 64-bit range raises.
-/

namespace Qrtb

def ascii (chars : List Char) : Bytes := chars.map fun c => UInt8.ofNat c.toNat

/-- One argument of `concat`. -/
inductive Arg where
  | bytes (b : Bytes)
  | str (s : String)
  | int (n : ℤ)
  | float (ieee : BitVec 64)
  deriving DecidableEq

def Arg.encode : Arg → Except PyError Bytes
  | .bytes b => .ok b
  | .str s => .ok s.toUTF8.toList
  | .int n => structPack 8 n
  | .float ieee => .ok (Bytes.bigEndian 8 ieee.toNat)

def concat : List Arg → Except PyError Bytes
  | [] => .ok []
  | a :: as => do
    let part ← a.encode
    let rest ← concat as
    return part ++ rest

@[simp] theorem concat_nil : concat [] = .ok [] := rfl

theorem concat_cons_eq_ok {a : Arg} {as : List Arg} {data : Bytes} :
    concat (a :: as) = .ok data ↔
      ∃ part, a.encode = .ok part ∧ ∃ rest, concat as = .ok rest ∧ data = part ++ rest := by
  rw [concat, Except.bind_eq_ok]
  simp only [pure, Except.pure, Except.bind_return_eq_ok]

theorem concat_bytes_cons_eq_ok {b : Bytes} {as : List Arg} {data : Bytes} :
    concat (.bytes b :: as) = .ok data ↔ ∃ rest, concat as = .ok rest ∧ data = b ++ rest := by
  simp [concat_cons_eq_ok, Arg.encode]

theorem concat_int_cons_eq_ok {n : ℤ} {as : List Arg} {data : Bytes} :
    concat (.int n :: as) = .ok data ↔ (0 ≤ n ∧ n < 256 ^ 8) ∧
      ∃ rest, concat as = .ok rest ∧ data = Bytes.bigEndian 8 n.toNat ++ rest := by
  simp only [concat_cons_eq_ok, Arg.encode, structPack_eq_ok]
  constructor
  · intro h
    obtain ⟨part, ⟨hn, rfl⟩, hrest⟩ := h
    exact ⟨hn, hrest⟩
  · intro h
    exact ⟨_, ⟨h.1, rfl⟩, h.2⟩

theorem concat_float_cons_eq_ok {ieee : BitVec 64} {as : List Arg} {data : Bytes} :
    concat (.float ieee :: as) = .ok data ↔
      ∃ rest, concat as = .ok rest ∧ data = Bytes.bigEndian 8 ieee.toNat ++ rest := by
  simp [concat_cons_eq_ok, Arg.encode]

theorem concat_append_eq_ok {as bs : List Arg} {data : Bytes} :
    concat (as ++ bs) = .ok data ↔
      ∃ front, concat as = .ok front ∧ ∃ rest, concat bs = .ok rest ∧ data = front ++ rest := by
  induction as generalizing data with
  | nil => simp
  | cons a as ih =>
    simp only [List.cons_append, concat_cons_eq_ok, ih]
    constructor
    · rintro ⟨part, hpart, _, ⟨front, hfront, rest, hrest, rfl⟩, rfl⟩
      exact ⟨part ++ front, ⟨part, hpart, front, hfront, rfl⟩, rest, hrest,
        (List.append_assoc ..).symm⟩
    · rintro ⟨_, ⟨part, hpart, front, hfront, rfl⟩, rest, hrest, rfl⟩
      exact ⟨part, hpart, front ++ rest, ⟨front, hfront, rest, hrest, rfl⟩,
        List.append_assoc ..⟩

theorem concat_append_bytes_eq_ok {as : List Arg} {b data : Bytes} :
    concat (as ++ [.bytes b]) = .ok data ↔ ∃ front, concat as = .ok front ∧ data = front ++ b := by
  simp [concat_append_eq_ok, concat_bytes_cons_eq_ok]

theorem concat_map_bytes_append_eq_ok {parts : List Bytes} {as : List Arg} {data : Bytes} :
    concat (parts.map Arg.bytes ++ as) = .ok data ↔
      ∃ rest, concat as = .ok rest ∧ data = parts.flatten ++ rest := by
  induction parts generalizing data with
  | nil => simp
  | cons part parts ih =>
    simp only [List.map_cons, List.cons_append, concat_bytes_cons_eq_ok, ih, List.flatten_cons,
      List.append_assoc]
    constructor
    · rintro ⟨_, ⟨rest, hrest, rfl⟩, rfl⟩
      exact ⟨rest, hrest, rfl⟩
    · rintro ⟨rest, hrest, rfl⟩
      exact ⟨_, ⟨rest, hrest, rfl⟩, rfl⟩

theorem concat_returns {as : List Arg} : (concat as).Returns ↔ ∀ a ∈ as, a.encode.Returns := by
  induction as with
  | nil => exact ⟨fun _ a ha => absurd ha List.not_mem_nil, fun _ => ⟨[], rfl⟩⟩
  | cons a as ih =>
    simp only [concat, Except.returns_bind, List.forall_mem_cons, ← ih]
    constructor
    · rintro ⟨part, hp, rest, hr, -⟩
      exact ⟨⟨part, hp⟩, rest, hr⟩
    · rintro ⟨⟨part, hp⟩, rest, hr⟩
      exact ⟨part, hp, rest, hr, part ++ rest, rfl⟩

@[simp] theorem encode_bytes_returns (b : Bytes) : (Arg.encode (.bytes b)).Returns := ⟨b, rfl⟩

@[simp] theorem encode_int_returns (n : ℤ) :
    (Arg.encode (.int n)).Returns ↔ 0 ≤ n ∧ n < 256 ^ 8 :=
  structPack_returns

end Qrtb
