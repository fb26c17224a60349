import Qrtb.Lib.Bytes
import Mathlib.Data.List.TakeDrop

/-!
# Text

Strings and the bytes they have in UTF-8, the cut at the last separator, and the integers
that strings spell. An integer may be surrounded by white space, have a sign, group its
digits with underscores and use the decimal digits of any script.
-/

namespace Text

def utf8 (s : String) : Bytes := s.toUTF8.data.toList

/-- The string that the bytes encode, if they encode one. -/
def ofUtf8 (data : Bytes) : Option String := String.fromUTF8? data.toByteArray

theorem toByteArray_utf8 (s : String) : (utf8 s).toByteArray = s.toUTF8 := by
  apply ByteArray.ext
  rw [utf8, List.data_toByteArray]

@[simp] theorem ofUtf8_utf8 (s : String) : ofUtf8 (utf8 s) = some s := by
  have hvalid : s.toUTF8.IsValidUTF8 := s.isValidUTF8
  rw [ofUtf8, toByteArray_utf8, String.fromUTF8?, dif_pos hvalid]
  congr

theorem ofUtf8_eq_some {data : Bytes} {s : String} : ofUtf8 data = some s ↔ data = utf8 s := by
  constructor
  · intro h
    rw [ofUtf8, String.fromUTF8?] at h
    split_ifs at h with hvalid
    obtain rfl := Option.some.inj h
    exact List.toList_data_toByteArray.symm
  · rintro rfl
    exact ofUtf8_utf8 s

/-- `s.rsplit(sep, 1)`, when there are two parts. -/
def rsplitOnce (sep : Char) (s : String) : Option (String × String) :=
  match s.toList.reverse.span (· ≠ sep) with
  | (_, []) => none
  | (last, _ :: front) => some (String.ofList front.reverse, String.ofList last.reverse)

theorem rsplitOnce_append {sep : Char} (front : String) {last : String}
    (h : sep ∉ last.toList) :
    rsplitOnce sep (front ++ String.singleton sep ++ last) = some (front, last) := by
  have hlast : ∀ c ∈ last.toList.reverse, decide (c ≠ sep) = true := by
    intro c hc
    simp only [decide_eq_true_eq]
    rintro rfl
    exact h (List.mem_reverse.mp hc)
  have hsep : decide (sep ≠ sep) = false := by simp
  have hchars : (front ++ String.singleton sep ++ last).toList.reverse =
      last.toList.reverse ++ sep :: front.toList.reverse := by
    simp
  rw [rsplitOnce, hchars, List.span_eq_takeWhile_dropWhile,
    List.takeWhile_append_of_pos hlast, List.dropWhile_append_of_pos hlast,
    List.takeWhile_cons_of_neg (by simp), List.dropWhile_cons_of_neg (by simp)]
  simp

def isSpace (c : Char) : Bool :=
  (9 ≤ c.toNat ∧ c.toNat ≤ 13) ∨ (0x2000 ≤ c.toNat ∧ c.toNat ≤ 0x200a) ∨
    c.toNat ∈ [0x20, 0x85, 0xa0, 0x1680, 0x2028, 0x2029, 0x202f, 0x205f, 0x3000]

/-- The zeros of the scripts; the other digits of a script follow its zero. -/
def digitZeros : List ℕ :=
  [0x30, 0x660, 0x6f0, 0x7c0, 0x966, 0x9e6, 0xa66, 0xae6, 0xb66, 0xbe6, 0xc66, 0xce6, 0xd66,
    0xde6, 0xe50, 0xed0, 0xf20, 0x1040, 0x1090, 0x17e0, 0x1810, 0x1946, 0x19d0, 0x1a80, 0x1a90,
    0x1b50, 0x1bb0, 0x1c40, 0x1c50, 0xa620, 0xa8d0, 0xa900, 0xa9d0, 0xa9f0, 0xaa50, 0xabf0,
    0xff10, 0x104a0, 0x10d30, 0x11066, 0x110f0, 0x11136, 0x111d0, 0x112f0, 0x11450, 0x114d0,
    0x11650, 0x116c0, 0x11730, 0x118e0, 0x11950, 0x11c50, 0x11d50, 0x11da0, 0x16a60, 0x16ac0,
    0x16b50, 0x1d7ce, 0x1d7d8, 0x1d7e2, 0x1d7ec, 0x1d7f6, 0x1e140, 0x1e2f0, 0x1e950, 0x1fbf0]

def digit? (c : Char) : Option ℕ :=
  (digitZeros.find? fun z => z ≤ c.toNat ∧ c.toNat < z + 10).map (c.toNat - ·)

/-- More digits than this are not converted. -/
def MAX_STR_DIGITS : ℕ := 4300

/-- Digits, with single underscores between them. -/
def parseNat (chars : List Char) : Option ℕ :=
  let groups := chars.splitOn '_'
  if [] ∈ groups then none
  else
    match groups.flatten.mapM digit? with
    | none => none
    | some digits =>
      if MAX_STR_DIGITS < digits.length then none
      else some (digits.foldl (fun value digit => 10 * value + digit) 0)

def strip (chars : List Char) : List Char :=
  ((chars.dropWhile isSpace).reverse.dropWhile isSpace).reverse

/-- `int(s)`. -/
def parseInt (s : String) : Option ℤ :=
  match strip s.toList with
  | '-' :: chars => (parseNat chars).map fun n => -(n : ℤ)
  | '+' :: chars => (parseNat chars).map Int.ofNat
  | chars => (parseNat chars).map Int.ofNat

theorem isDigit_iff {c : Char} : c.isDigit ↔ 48 ≤ c.toNat ∧ c.toNat ≤ 57 :=
  Char.isDigit_iff_toNat

theorem digit?_of_isDigit {c : Char} (h : c.isDigit) : digit? c = some (c.toNat - 48) := by
  rw [isDigit_iff] at h
  rw [digit?, digitZeros, List.find?_cons_of_pos]
  · rfl
  · simp
    omega

theorem not_isSpace_of_isDigit {c : Char} (h : c.isDigit) : isSpace c = false := by
  rw [isDigit_iff] at h
  simp [isSpace]
  omega

theorem strip_of_forall {chars : List Char} (h : ∀ c ∈ chars, isSpace c = false) :
    strip chars = chars := by
  have hdrop : ∀ {l : List Char}, (∀ c ∈ l, isSpace c = false) → l.dropWhile isSpace = l := by
    intro l hl
    cases l with
    | nil => rfl
    | cons c l => exact List.dropWhile_cons_of_neg (by simp [hl c List.mem_cons_self])
  rw [strip, hdrop h, hdrop fun c hc => h c (List.mem_reverse.mp hc), List.reverse_reverse]

theorem parseNat_toDigits {n : ℕ} (h : (Nat.toDigits 10 n).length ≤ MAX_STR_DIGITS) :
    parseNat (Nat.toDigits 10 n) = some n := by
  have hdigit : ∀ c ∈ Nat.toDigits 10 n, c.isDigit = true := fun c hc =>
    Nat.isDigit_of_mem_toDigits (by decide) (by decide) hc
  have hsplit : (Nat.toDigits 10 n).splitOn '_' = [Nat.toDigits 10 n] :=
    List.splitOn_eq_singleton Nat.underscore_not_in_toDigits
  have hread : ∀ l : List Char, (∀ c ∈ l, c.isDigit = true) →
      l.mapM digit? = some (l.map fun c => c.toNat - 48) := by
    intro l hl
    induction l with
    | nil => rfl
    | cons c l ih =>
      simp [digit?_of_isDigit (hl c List.mem_cons_self),
        ih fun d hd => hl d (List.mem_cons_of_mem _ hd)]
  have hne : Nat.toDigits 10 n ≠ [] := by simp
  have hvalue := @Nat.ofDigitChars_ten_toDigits n
  rw [Nat.ofDigitChars_eq_foldl] at hvalue
  rw [parseNat, hsplit]
  simp only [List.mem_singleton, hne.symm, if_false, List.flatten_singleton, hread _ hdigit,
    List.length_map, not_lt.mpr h, List.foldl_map]
  exact congrArg some hvalue

theorem parseInt_toString {n : ℕ} (h : (Nat.toDigits 10 n).length ≤ MAX_STR_DIGITS) :
    parseInt (toString n) = some (n : ℤ) := by
  have hdigit : ∀ c ∈ Nat.toDigits 10 n, c.isDigit = true := fun c hc =>
    Nat.isDigit_of_mem_toDigits (by decide) (by decide) hc
  have hchars : (toString n).toList = Nat.toDigits 10 n := Nat.toList_repr
  have hstrip := strip_of_forall fun c hc => not_isSpace_of_isDigit (hdigit c hc)
  rw [parseInt, hchars, hstrip]
  split
  next chars hminus => exact absurd (hdigit '-' (by simp [hminus])) (by decide)
  next chars hplus => exact absurd (hdigit '+' (by simp [hplus])) (by decide)
  next => rw [parseNat_toDigits h]; rfl

theorem notMem_toString {n : ℕ} {c : Char} (hc : c.isDigit = false) :
    c ∉ (toString n).toList := by
  intro h
  have hchars : (toString n).toList = Nat.toDigits 10 n := Nat.toList_repr
  rw [hchars] at h
  rw [Nat.isDigit_of_mem_toDigits (by decide) (by decide) h] at hc
  cases hc

end Text
