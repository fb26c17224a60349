import Mathlib.Data.Nat.Digits.Defs
import Mathlib.Data.List.Forall2
import Mathlib.Data.List.GetD
import Mathlib.Data.List.Induction
import Mathlib.Tactic.Ring

/-!
# Byte strings, slices and fixed-width integers

Byte strings are lists of bytes. `slice` cuts as a scripting-language slice
does: bounds past the end are clipped, never an error. Fixed-width integers
are written most significant byte first, and a value that does not fit its
width has no encoding.
-/

abbrev Bytes := List UInt8

namespace Bytes

/-- Equality of byte strings has one name, so that every search in a list decides it alike. -/
instance (priority := high) lawfulBEq : LawfulBEq Bytes := inferInstance

/-- `data[start:stop]`. -/
def slice (data : Bytes) (start stop : ℕ) : Bytes := (data.drop start).take (stop - start)

/-- Big-endian bytes of `n` in `width` bytes; higher digits are dropped. -/
def bigEndian : ℕ → ℕ → Bytes
  | 0, _ => []
  | width + 1, n => bigEndian width (n / 256) ++ [UInt8.ofNat (n % 256)]

/-- The number a byte string spells, most significant byte first. -/
def toNat (data : Bytes) : ℕ := data.foldl (fun acc b => acc * 256 + b.toNat) 0

@[simp] theorem length_bigEndian (width n : ℕ) : (bigEndian width n).length = width := by
  induction width generalizing n with
  | zero => rfl
  | succ width ih => simp [bigEndian, ih]

theorem toNat_append_singleton (data : Bytes) (b : UInt8) :
    toNat (data ++ [b]) = toNat data * 256 + b.toNat := by
  simp [toNat]

theorem toNat_bigEndian {width n : ℕ} (h : n < 256 ^ width) : toNat (bigEndian width n) = n := by
  induction width generalizing n with
  | zero =>
    have h0 : n = 0 := by simpa using h
    simp [h0, bigEndian, toNat]
  | succ width ih =>
    have hq : n / 256 < 256 ^ width := Nat.div_lt_of_lt_mul (by rwa [pow_succ, mul_comm] at h)
    have hr : (UInt8.ofNat (n % 256)).toNat = n % 256 := by simp
    rw [bigEndian, toNat_append_singleton, ih hq, hr]
    omega

theorem toNat_lt (data : Bytes) : toNat data < 256 ^ data.length := by
  induction data using List.reverseRecOn with
  | nil => exact Nat.one_pos
  | append_singleton data b ih =>
    have hb := b.toNat_lt
    rw [toNat_append_singleton, List.length_append, List.length_singleton, pow_succ]
    omega

theorem bigEndian_toNat (data : Bytes) : bigEndian data.length (toNat data) = data := by
  induction data using List.reverseRecOn with
  | nil => rfl
  | append_singleton data b ih =>
    have hb := b.toNat_lt
    have hdiv : (toNat data * 256 + b.toNat) / 256 = toNat data := by omega
    have hmod : (toNat data * 256 + b.toNat) % 256 = b.toNat := by omega
    rw [toNat_append_singleton, List.length_append, List.length_singleton, bigEndian, hdiv, hmod,
      ih, UInt8.ofNat_toNat]

theorem bigEndian_inj {width m n : ℕ} (hm : m < 256 ^ width) (hn : n < 256 ^ width)
    (h : bigEndian width m = bigEndian width n) : m = n := by
  rw [← toNat_bigEndian hm, h, toNat_bigEndian hn]

theorem bigEndian_add (upper lower n : ℕ) :
    bigEndian (upper + lower) n = bigEndian upper (n / 256 ^ lower) ++ bigEndian lower n := by
  induction lower generalizing n with
  | zero => simp [bigEndian]
  | succ lower ih =>
    rw [← Nat.add_assoc, bigEndian, ih, Nat.div_div_eq_div_mul, ← pow_succ', List.append_assoc]
    rfl

theorem bigEndian_eight (n : ℕ) : bigEndian 8 n =
    [UInt8.ofNat ((n >>> 56) &&& 0xFF), UInt8.ofNat ((n >>> 48) &&& 0xFF),
      UInt8.ofNat ((n >>> 40) &&& 0xFF), UInt8.ofNat ((n >>> 32) &&& 0xFF),
      UInt8.ofNat ((n >>> 24) &&& 0xFF), UInt8.ofNat ((n >>> 16) &&& 0xFF),
      UInt8.ofNat ((n >>> 8) &&& 0xFF), UInt8.ofNat (n &&& 0xFF)] := by
  have hmask : ∀ m : ℕ, m &&& 0xFF = m % 256 := fun m => Nat.and_two_pow_sub_one_eq_mod m 8
  simp [bigEndian, hmask, Nat.shiftRight_eq_div_pow, Nat.div_div_eq_div_mul]

theorem bigEndian_eight_of_lt {n : ℕ} (h : n < 2 ^ 32) : bigEndian 8 n =
    [0, 0, 0, 0, UInt8.ofNat ((n >>> 24) &&& 0xFF), UInt8.ofNat ((n >>> 16) &&& 0xFF),
      UInt8.ofNat ((n >>> 8) &&& 0xFF), UInt8.ofNat (n &&& 0xFF)] := by
  have hzero : ∀ k, 32 ≤ k → n >>> k = 0 := by
    intro k hk
    rw [Nat.shiftRight_eq_div_pow, Nat.div_eq_of_lt]
    exact h.trans_le (Nat.pow_le_pow_right (by decide) hk)
  rw [bigEndian_eight, hzero 56 (by decide), hzero 48 (by decide), hzero 40 (by decide),
    hzero 32 (by decide)]
  rfl

/-- Two parts that end at the same place, whatever follows them, when the texts are equal. -/
def Aligned (a b : Bytes) : Prop := ∀ r s, a ++ r = b ++ s → a = b ∧ r = s

theorem Aligned.of_length {a b : Bytes} (h : a.length = b.length) : Aligned a b :=
  fun _ _ heq => List.append_inj heq h

/-- The second parts may rely on the first ones being equal, as a part after its length does. -/
theorem Aligned.append {a b c d : Bytes} (h : Aligned a b) (hrest : a = b → Aligned c d) :
    Aligned (a ++ c) (b ++ d) := by
  intro r s heq
  simp only [List.append_assoc] at heq
  obtain ⟨hab, heq⟩ := h _ _ heq
  obtain ⟨hcd, hrs⟩ := hrest hab _ _ heq
  exact ⟨by rw [hab, hcd], hrs⟩

/-- Elements with equal images, and a property that holds throughout both lists, pair up. -/
theorem forall₂_of_map_eq {α β : Type*} {f : α → β} {P : α → Prop} {as bs : List α}
    (ha : ∀ a ∈ as, P a) (hb : ∀ b ∈ bs, P b) (h : as.map f = bs.map f) :
    List.Forall₂ (fun a b => P a ∧ P b ∧ f a = f b) as bs := by
  induction as generalizing bs with
  | nil =>
    obtain rfl := List.map_eq_nil_iff.mp h.symm
    exact .nil
  | cons a as ih =>
    cases bs with
    | nil => cases h
    | cons b bs =>
      obtain ⟨hhead, htail⟩ := List.cons.inj h
      exact .cons ⟨ha a List.mem_cons_self, hb b List.mem_cons_self, hhead⟩
        (ih (fun x hx => ha x (List.mem_cons_of_mem _ hx))
          (fun x hx => hb x (List.mem_cons_of_mem _ hx)) htail)

/-- In joined lists of pairwise aligned parts, what each part determines is equal. -/
theorem Aligned.flatten_map {α β : Type*} {f : α → Bytes} {g : α → β} {as bs : List α}
    (h : List.Forall₂ (fun a b => Aligned (f a) (f b) ∧ (f a = f b → g a = g b)) as bs)
    {r s : Bytes} (heq : (as.map f).flatten ++ r = (bs.map f).flatten ++ s) :
    as.map g = bs.map g ∧ r = s := by
  induction h with
  | nil => exact ⟨rfl, heq⟩
  | cons hab _ ih =>
    simp only [List.map_cons, List.flatten_cons, List.append_assoc] at heq
    obtain ⟨hhead, htail⟩ := hab.1 _ _ heq
    obtain ⟨hrest, hrs⟩ := ih htail
    exact ⟨by rw [List.map_cons, List.map_cons, hab.2 hhead, hrest], hrs⟩

theorem length_slice_eq (data : Bytes) (start stop : ℕ) :
    (slice data start stop).length = min (stop - start) (data.length - start) := by
  rw [slice, List.length_take, List.length_drop]

@[simp] theorem slice_zero (data : Bytes) (stop : ℕ) : slice data 0 stop = data.take stop := rfl

theorem slice_append_slice (data : Bytes) {start middle stop : ℕ} (h : start ≤ middle)
    (h' : middle ≤ stop) :
    slice data start middle ++ slice data middle stop = slice data start stop := by
  have hlength : stop - start = (middle - start) + (stop - middle) := by omega
  have hdrop : data.drop middle = (data.drop start).drop (middle - start) := by
    rw [List.drop_drop]
    congr 1
    omega
  rw [slice, slice, slice, hdrop, hlength, List.take_add]

/-- A slice of joined parts that starts where a part starts and has its length is that part. -/
theorem slice_flatten (parts : List Bytes) (i start stop : ℕ) {part : Bytes}
    (hi : parts[i]? = some part) (hs : start = (parts.take i).flatten.length)
    (he : stop = start + part.length) : slice parts.flatten start stop = part := by
  obtain ⟨hlt, rfl⟩ := List.getElem?_eq_some_iff.mp hi
  have hsplit : parts.flatten =
      (parts.take i).flatten ++ (parts[i] ++ (parts.drop (i + 1)).flatten) := by
    rw [← List.flatten_cons, List.getElem_cons_drop, ← List.flatten_append,
      List.take_append_drop]
  subst hs he
  rw [hsplit, slice, List.drop_left, Nat.add_sub_cancel_left, List.take_left]

/-- Cutting a concatenation of equally long parts at multiples of that length gives back a part. -/
theorem slice_flatMap {α : Type*} (f : α → Bytes) {width : ℕ} {parts : List α}
    (hf : ∀ a ∈ parts, (f a).length = width) {i : ℕ} {a : α} (hi : parts[i]? = some a) :
    slice (parts.flatMap f) (i * width) ((i + 1) * width) = f a := by
  induction parts generalizing i with
  | nil => simp at hi
  | cons b parts ih =>
    have hb : (f b).length = width := hf b (by simp)
    cases i with
    | zero =>
      simp only [List.getElem?_cons_zero, Option.some.injEq] at hi
      subst hi
      simp [slice, ← hb]
    | succ i =>
      have hrest := ih (fun c hc => hf c (by simp [hc])) (i := i) (by simpa using hi)
      have hdrop : ((b :: parts).flatMap f).drop ((i + 1) * width) =
          (parts.flatMap f).drop (i * width) := by
        rw [List.flatMap_cons, show (i + 1) * width = (f b).length + i * width by rw [hb]; ring,
          List.drop_length_add_append]
      have hwidth : (i + 1 + 1) * width - (i + 1) * width = (i + 1) * width - i * width := by
        have h1 : (i + 1 + 1) * width = (i + 1) * width + width := by ring
        have h2 : (i + 1) * width = i * width + width := by ring
        omega
      rw [slice, hdrop, hwidth]
      exact hrest

theorem slice_append_left {data : Bytes} (rest : Bytes) (start : ℕ) {stop : ℕ}
    (h : stop ≤ data.length) : slice (data ++ rest) start stop = slice data start stop := by
  rcases le_total stop start with hle | hle
  · simp [slice, Nat.sub_eq_zero_of_le hle]
  · rw [slice, slice, List.drop_append_of_le_length (hle.trans h),
      List.take_append_of_le_length (by rw [List.length_drop]; omega)]

theorem length_slice (data : Bytes) (i width : ℕ) :
    (slice data (i * width) ((i + 1) * width)).length = min width (data.length - i * width) := by
  rw [slice, List.length_take, List.length_drop, Nat.succ_mul, Nat.add_sub_cancel_left]

/-- The string of a length whose blocks are given; a longer block is cut, a shorter one filled. -/
def ofBlocks (width length : ℕ) (block : ℕ → Bytes) : Bytes :=
  (List.range length).map fun j => (block (j / width)).getD (j % width) 0

@[simp] theorem length_ofBlocks (width length : ℕ) (block : ℕ → Bytes) :
    (ofBlocks width length block).length = length := by
  simp [ofBlocks]

theorem slice_ofBlocks {width length : ℕ} {block : ℕ → Bytes} {i : ℕ}
    (hi : (block i).length = min width (length - i * width)) :
    slice (ofBlocks width length block) (i * width) ((i + 1) * width) = block i := by
  have hlength : (slice (ofBlocks width length block) (i * width) ((i + 1) * width)).length =
      (block i).length := by
    rw [length_slice, length_ofBlocks, hi]
  apply List.ext_getElem hlength
  intro k hk hk'
  have hwidth : k < width := by omega
  have hdiv : (i * width + k) / width = i := by
    rw [Nat.mul_comm, Nat.mul_add_div (by omega), Nat.div_eq_of_lt hwidth, Nat.add_zero]
  have hmod : (i * width + k) % width = k := by
    rw [Nat.mul_comm, Nat.mul_add_mod, Nat.mod_eq_of_lt hwidth]
  simp only [slice, ofBlocks, List.getElem_take, List.getElem_drop, List.getElem_map,
    List.getElem_range, hdiv, hmod]
  exact List.getD_eq_getElem _ _ hk'

/-- The lower-case hexadecimal digits of a byte string. -/
def hex (data : Bytes) : String :=
  String.ofList (data.flatMap fun b => [Nat.digitChar (b.toNat / 16), Nat.digitChar (b.toNat % 16)])

/-- The first `n` characters of the hexadecimal form, as used in messages. -/
def hexPrefix (data : Bytes) (n : ℕ) : String := ((hex data).take n).toString

end Bytes
